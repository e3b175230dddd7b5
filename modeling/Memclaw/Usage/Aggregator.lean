import Mathlib.Algebra.BigOperators.Group.List.Basic
import Mathlib.Algebra.Ring.Nat
import Memclaw.Lib.FloatText
import Memclaw.Lib.Groups
import Memclaw.Lib.Interleave

/-! Capability usage: every process folds its operations into counters and flushes them as rows of
one table, where a report adds them up. Each operation is counted there once or not at all. -/

namespace Memclaw.Usage

open Lib Lib.Interleave

structure Key where
  tenantId : String
  capability : String
  op : String
  transport : String
  bucket : ℤ
deriving DecidableEq

@[ext] structure Counter where
  count : ℕ
  errorCount : ℕ
  durationMsSum : ℕ
deriving DecidableEq

instance : Zero Counter := ⟨⟨0, 0, 0⟩⟩

instance : Add Counter :=
  ⟨fun c d => ⟨c.count + d.count, c.errorCount + d.errorCount, c.durationMsSum + d.durationMsSum⟩⟩

instance : AddCommMonoid Counter where
  add_assoc _ _ _ := Counter.ext (Nat.add_assoc ..) (Nat.add_assoc ..) (Nat.add_assoc ..)
  zero_add _ := Counter.ext (Nat.zero_add _) (Nat.zero_add _) (Nat.zero_add _)
  add_zero _ := Counter.ext (Nat.add_zero _) (Nat.add_zero _) (Nat.add_zero _)
  add_comm _ _ := Counter.ext (Nat.add_comm ..) (Nat.add_comm ..) (Nat.add_comm ..)
  nsmul := nsmulRec

structure Operation where
  capability : String
  transport : String
  tenantId : Option String
  op : Option String
  status : String
  durationMs : PyFloat
  minute : ℤ

def NON_TENANT : List String := ["", "__unauthenticated__", "__admin__", "__no_auth__"]

section Operation

variable (o : Operation)

def Operation.attributed : Bool := o.tenantId.any (· ∉ NON_TENANT)

def Operation.key : Key :=
  ⟨o.tenantId.getD "", o.capability, o.op.getD "", o.transport, o.minute⟩

/-- `int(duration_ms)` of a duration above zero. That of an infinite one raises, which
`record_usage` swallows when the rest is counted already. -/
def Operation.millis : ℕ :=
  match o.durationMs with
  | .finite x => if x.neg then 0 else x.natAbs
  | .infinite _ => 0
  | .nan => 0

def Operation.counter : Counter := ⟨1, if o.status = "ok" then 0 else 1, o.millis⟩

end Operation

abbrev Buckets := List (Key × Counter)

def fold (o : Operation) (c : Option Counter) : Counter := c.getD 0 + o.counter

structure UsageRow where
  tenantId : String
  capability : String
  op : Option String
  transport : String
  tsBucket : ℤ
  counter : Counter

def UsageRow.of (bucket : Key × Counter) : UsageRow where
  tenantId := bucket.1.tenantId
  capability := bucket.1.capability
  op := if bucket.1.op = "" then none else some bucket.1.op
  transport := bucket.1.transport
  tsBucket := bucket.1.bucket
  counter := bucket.2

def UsageRow.key (row : UsageRow) : Key :=
  ⟨row.tenantId, row.capability, row.op.getD "", row.transport, row.tsBucket⟩

def UsageRow.checked (row : UsageRow) : Bool := row.transport ∈ ["mcp", "rest"]

def total (rows : List UsageRow) (k : Key) : Counter :=
  ((rows.filter fun row => row.key = k).map UsageRow.counter).sum

/-- A process; `flying` is the batch that its flusher waits for. -/
structure Process where
  buckets : Buckets
  flying : Option (List UsageRow)
  droppedCount : ℕ

def Process.start : Process := ⟨[], none, 0⟩

/-- `drain` is `_flush_once` up to its call, of the loop or of `stop`; `answer` is what becomes of
the call, not carried where anything in it raises. A process may end at any time, and starts again
with nothing. -/
inductive Turn
  | record (o : Operation)
  | drain
  | answer (carried : Bool)
  | die

def Turn.operation : Turn → Option Operation
  | .record o => if o.attributed then some o else none
  | _ => none

/-- The rows go into the table in one transaction. -/
def Process.turn : Turn → Process → List UsageRow → Process × List UsageRow
  | .record o, p, table =>
    if o.attributed then ({ p with buckets := Groups.upsert o.key (fold o) p.buckets }, table)
    else ({ p with droppedCount := p.droppedCount + 1 }, table)
  | .drain, p, table =>
    if p.flying.isSome then (p, table)
    else if p.buckets = [] then (p, table)
    else ({ p with buckets := [], flying := some (p.buckets.map UsageRow.of) }, table)
  | .answer carried, p, table =>
    match p.flying with
    | none => (p, table)
    | some rows =>
      ({ p with flying := none },
        if carried && rows.all UsageRow.checked then table ++ rows else table)
  | .die, _, table => (.start, table)

/-- What a turn makes a process forget without the table having it. -/
def Process.losing (p : Process) : Turn → List UsageRow
  | .answer carried =>
    if carried && (p.flying.getD []).all UsageRow.checked then [] else p.flying.getD []
  | .die => p.buckets.map UsageRow.of ++ p.flying.getD []
  | _ => []

abbrev System (ι : Type) := Pool ι (List UsageRow) Process

def System.start (ι : Type) : System ι := ⟨[], fun _ => .start⟩

theorem key_of (bucket : Key × Counter) : (UsageRow.of bucket).key = bucket.1 := by
  obtain ⟨⟨tenantId, capability, op, transport, bucket⟩, c⟩ := bucket
  by_cases hop : op = ""
  · simp [UsageRow.key, UsageRow.of, hop]
  · simp [UsageRow.key, UsageRow.of, hop]

def totalOf (operations : List Operation) (k : Key) : Counter :=
  ((operations.filter fun o => o.key = k).map Operation.counter).sum

theorem total_append (rows rows' : List UsageRow) (k : Key) :
    total (rows ++ rows') k = total rows k + total rows' k := by
  rw [total, List.filter_append, List.map_append, List.sum_append]
  rfl

theorem total_cons (row : UsageRow) (rows : List UsageRow) (k : Key) :
    total (row :: rows) k = (if row.key = k then row.counter else 0) + total rows k := by
  rw [total, List.filter_cons]
  by_cases hk : row.key = k
  · rw [if_pos (decide_eq_true hk), if_pos hk, List.map_cons, List.sum_cons]
    rfl
  · rw [if_neg (by simpa using hk), if_neg hk, zero_add]
    rfl

theorem total_upsert (o : Operation) (buckets : Buckets) (k : Key) :
    total ((Groups.upsert o.key (fold o) buckets).map UsageRow.of) k =
      total (buckets.map UsageRow.of) k + if o.key = k then o.counter else 0 := by
  induction buckets with
  | nil =>
    rw [Groups.upsert, List.map_cons, total_cons, key_of, add_comm]
    congr 1
    split_ifs
    · exact zero_add _
    · rfl
  | cons bucket buckets ih =>
    rw [Groups.upsert]
    split_ifs with hkey hk hk
    · rw [List.map_cons, List.map_cons, total_cons, total_cons, key_of, key_of,
        if_pos (hkey.trans hk), if_pos (hkey.trans hk), add_right_comm]
      rfl
    · rw [List.map_cons, List.map_cons, total_cons, total_cons, key_of, key_of,
        if_neg fun h => hk (hkey.symm.trans h), if_neg fun h => hk (hkey.symm.trans h), add_zero]
    · rw [List.map_cons, List.map_cons, total_cons, total_cons, ih, if_pos hk, add_assoc]
    · rw [List.map_cons, List.map_cons, total_cons, total_cons, ih, if_neg hk, add_zero, add_zero]

section Ledger

variable {ι : Type} [DecidableEq ι]

inductive Place (ι : Type)
  | buffered (i : ι)
  | flying (i : ι)
  | stored
  | lost
deriving DecidableEq

structure Entry (ι : Type) where
  operation : Operation
  place : Place ι

abbrev Ledger (ι : Type) := List (Entry ι)

def Entry.moved (a b : Place ι) (entry : Entry ι) : Entry ι :=
  if entry.place = a then { entry with place := b } else entry

def Ledger.move (a b : Place ι) (ledger : Ledger ι) : Ledger ι := ledger.map (Entry.moved a b)

def Ledger.sumAt (ledger : Ledger ι) (place : Place ι) (k : Key) : Counter :=
  ((ledger.filter fun entry => entry.place = place ∧ entry.operation.key = k).map
    fun entry => entry.operation.counter).sum

theorem sumAt_cons (entry : Entry ι) (ledger : Ledger ι) (place : Place ι) (k : Key) :
    Ledger.sumAt (entry :: ledger) place k =
      (if entry.place = place ∧ entry.operation.key = k then entry.operation.counter else 0) +
        ledger.sumAt place k := by
  rw [Ledger.sumAt, List.filter_cons]
  by_cases h : entry.place = place ∧ entry.operation.key = k
  · rw [if_pos (decide_eq_true h), if_pos h, List.map_cons, List.sum_cons]
    rfl
  · rw [if_neg (by simpa using h), if_neg h, zero_add]
    rfl

theorem sumAt_append (ledger ledger' : Ledger ι) (place : Place ι) (k : Key) :
    Ledger.sumAt (ledger ++ ledger') place k = ledger.sumAt place k + ledger'.sumAt place k := by
  rw [Ledger.sumAt, List.filter_append, List.map_append, List.sum_append]
  rfl

theorem operations_move (a b : Place ι) (ledger : Ledger ι) :
    (ledger.move a b).map Entry.operation = ledger.map Entry.operation := by
  rw [Ledger.move, List.map_map]
  refine List.map_congr_left fun entry _ => ?_
  rw [Function.comp_apply, Entry.moved]
  split_ifs <;> rfl

section Move

variable {a b c : Place ι} (ledger : Ledger ι) (k : Key)

theorem sumAt_move_target (hab : a ≠ b) :
    (ledger.move a b).sumAt b k = ledger.sumAt b k + ledger.sumAt a k := by
  induction ledger with
  | nil => exact (add_zero (0 : Counter)).symm
  | cons entry ledger ih =>
    rw [Ledger.move, List.map_cons, ← Ledger.move, sumAt_cons, sumAt_cons, sumAt_cons, ih,
      Entry.moved]
    by_cases ha : entry.place = a
    · have hb : ¬ (entry.place = b ∧ entry.operation.key = k) := fun h => hab (ha.symm.trans h.1)
      rw [if_pos ha, if_neg hb, zero_add, ha]
      simp only [true_and]
      exact add_left_comm ..
    · have hnot : ¬ (entry.place = a ∧ entry.operation.key = k) := fun h => ha h.1
      rw [if_neg ha, if_neg hnot, zero_add, add_assoc]

theorem sumAt_move_source (hab : a ≠ b) : (ledger.move a b).sumAt a k = 0 := by
  induction ledger with
  | nil => rfl
  | cons entry ledger ih =>
    have haway : (entry.moved a b).place ≠ a := by
      rw [Entry.moved]
      split_ifs with h
      · exact hab.symm
      · exact h
    rw [Ledger.move, List.map_cons, ← Ledger.move, sumAt_cons, ih, if_neg fun h => haway h.1,
      add_zero]

theorem sumAt_move_other (ha : c ≠ a) (hb : c ≠ b) :
    (ledger.move a b).sumAt c k = ledger.sumAt c k := by
  induction ledger with
  | nil => rfl
  | cons entry ledger ih =>
    rw [Ledger.move, List.map_cons, ← Ledger.move, sumAt_cons, sumAt_cons, ih, Entry.moved]
    by_cases h : entry.place = a
    · have hnot : ¬ (entry.place = c ∧ entry.operation.key = k) := fun h' => ha (h'.1.symm.trans h)
      have hnot' : ¬ (b = c ∧ entry.operation.key = k) := fun h' => hb h'.1.symm
      rw [if_pos h, if_neg hnot, if_neg hnot']
    · rw [if_neg h]

end Move

/-- What a system holds of the operations in a ledger. -/
structure Accounted (sys : System ι) (ledger : Ledger ι) : Prop where
  buffered : ∀ i k, total ((sys.parties i).buckets.map UsageRow.of) k = ledger.sumAt (.buffered i) k
  flying : ∀ i k, total ((sys.parties i).flying.getD []) k = ledger.sumAt (.flying i) k
  stored : ∀ k, total sys.shared k = ledger.sumAt .stored k

theorem accounted_start : Accounted (System.start ι) [] :=
  ⟨fun _ _ => rfl, fun _ _ => rfl, fun _ => rfl⟩

def Ledger.after (sys : System ι) (ledger : Ledger ι) (event : ι × Turn) : Ledger ι :=
  match event.2 with
  | .record o => if o.attributed then ledger ++ [⟨o, .buffered event.1⟩] else ledger
  | .drain =>
    if (sys.parties event.1).flying.isSome then ledger
    else ledger.move (.buffered event.1) (.flying event.1)
  | .answer carried =>
    if carried && ((sys.parties event.1).flying.getD []).all UsageRow.checked then
      ledger.move (.flying event.1) .stored
    else ledger.move (.flying event.1) .lost
  | .die => (ledger.move (.buffered event.1) .lost).move (.flying event.1) .lost

section Step

variable {sys : System ι} {ledger : Ledger ι}

theorem step_other (event : ι × Turn) {j : ι} (hj : j ≠ event.1) :
    (sys.step Process.turn event).parties j = sys.parties j :=
  Pool.step_of_ne Process.turn sys hj event.2

theorem Accounted.of_turn (h : Accounted sys ledger) {i : ι} {turn : Turn} {p : Process}
    {table : List UsageRow} (hturn : Process.turn turn (sys.parties i) sys.shared = (p, table))
    {ledger' : Ledger ι}
    (hbuffered : ∀ k, total (p.buckets.map UsageRow.of) k = ledger'.sumAt (.buffered i) k)
    (hflying : ∀ k, total (p.flying.getD []) k = ledger'.sumAt (.flying i) k)
    (hstored : ∀ k, total table k = ledger'.sumAt .stored k)
    (hother : ∀ j, j ≠ i → ∀ k, ledger'.sumAt (.buffered j) k = ledger.sumAt (.buffered j) k ∧
      ledger'.sumAt (.flying j) k = ledger.sumAt (.flying j) k) :
    Accounted (sys.step Process.turn (i, turn)) ledger' := by
  have hself : (sys.step Process.turn (i, turn)).parties i = p :=
    (Pool.step_self Process.turn sys i turn).trans (congrArg Prod.fst hturn)
  refine ⟨fun j k => ?_, fun j k => ?_, fun k => ?_⟩
  · by_cases hj : j = i
    · rw [hj, hself, hbuffered]
    · rw [step_other (i, turn) hj, h.buffered, (hother j hj k).1]
  · by_cases hj : j = i
    · rw [hj, hself, hflying]
    · rw [step_other (i, turn) hj, h.flying, (hother j hj k).2]
  · rw [← hstored]
    exact congrArg (fun next => total next.2 k) hturn

theorem Accounted.record (h : Accounted sys ledger) (i : ι) (o : Operation) :
    Accounted (sys.step Process.turn (i, .record o)) (ledger.after sys (i, .record o)) := by
  have hafter : ledger.after sys (i, .record o) =
      if o.attributed then ledger ++ [⟨o, .buffered i⟩] else ledger := rfl
  have hone : ∀ place k, Ledger.sumAt [⟨o, .buffered i⟩] place k =
      if .buffered i = place ∧ o.key = k then o.counter else 0 := fun place k => by
    rw [sumAt_cons]
    exact add_zero _
  rw [hafter]
  by_cases ho : o.attributed = true
  · rw [if_pos ho]
    have hturn : Process.turn (.record o) (sys.parties i) sys.shared =
      ({ sys.parties i with buckets := Groups.upsert o.key (fold o) (sys.parties i).buckets },
        sys.shared) := if_pos ho
    refine h.of_turn hturn (fun k => ?_) (fun k => ?_) (fun k => ?_) fun j hj k => ⟨?_, ?_⟩
    · rw [total_upsert, h.buffered, sumAt_append, hone]
      simp only [true_and]
    · rw [h.flying, sumAt_append, hone, if_neg (by simp), add_zero]
    · rw [h.stored, sumAt_append, hone, if_neg (by simp), add_zero]
    · rw [sumAt_append, hone, if_neg fun h' => hj (Place.buffered.inj h'.1).symm, add_zero]
    · rw [sumAt_append, hone, if_neg (by simp), add_zero]
  · rw [if_neg ho]
    have hturn : Process.turn (.record o) (sys.parties i) sys.shared =
      ({ sys.parties i with droppedCount := (sys.parties i).droppedCount + 1 }, sys.shared) :=
      if_neg ho
    exact h.of_turn hturn (h.buffered i) (h.flying i) h.stored fun _ _ _ => ⟨rfl, rfl⟩

theorem Accounted.drain (h : Accounted sys ledger) (i : ι) :
    Accounted (sys.step Process.turn (i, .drain)) (ledger.after sys (i, .drain)) := by
  have hafter : ledger.after sys (i, .drain) = if (sys.parties i).flying.isSome then ledger
      else ledger.move (.buffered i) (.flying i) := rfl
  have hne : Place.buffered i ≠ Place.flying i := by simp
  rw [hafter]
  by_cases hflying : (sys.parties i).flying.isSome = true
  · rw [if_pos hflying]
    have hturn : Process.turn .drain (sys.parties i) sys.shared = (sys.parties i, sys.shared) :=
      if_pos hflying
    exact h.of_turn hturn (h.buffered i) (h.flying i) h.stored fun _ _ _ => ⟨rfl, rfl⟩
  rw [if_neg hflying]
  have hnone : ∀ k, ledger.sumAt (.flying i) k = 0 := fun k => by
    rw [← h.flying, Option.not_isSome_iff_eq_none.mp hflying]
    rfl
  have hstored : ∀ k,
      total sys.shared k = (ledger.move (.buffered i) (.flying i)).sumAt .stored k :=
    fun k => by rw [h.stored, sumAt_move_other _ _ (by simp) (by simp)]
  have hother : ∀ j, j ≠ i → ∀ k,
      (ledger.move (.buffered i) (.flying i)).sumAt (.buffered j) k = ledger.sumAt (.buffered j) k ∧
        (ledger.move (.buffered i) (.flying i)).sumAt (.flying j) k = ledger.sumAt (.flying j) k :=
    fun j hj k => ⟨sumAt_move_other _ _ (by simpa using hj) (by simp),
      sumAt_move_other _ _ (by simp) (by simpa using hj)⟩
  by_cases hempty : (sys.parties i).buckets = []
  · -- nothing to flush, and nothing in the ledger to move
    have hzero : ∀ k, ledger.sumAt (.buffered i) k = 0 := fun k => by
      rw [← h.buffered, hempty]
      rfl
    have hturn : Process.turn .drain (sys.parties i) sys.shared = (sys.parties i, sys.shared) :=
      (if_neg hflying).trans (if_pos hempty)
    refine h.of_turn hturn (fun k => ?_) (fun k => ?_) hstored hother
    · rw [h.buffered, hzero, sumAt_move_source _ _ hne]
    · rw [h.flying, hnone, sumAt_move_target _ _ hne, hnone, hzero]
      rfl
  · have hturn : Process.turn .drain (sys.parties i) sys.shared =
      ({ sys.parties i with
          buckets := []
          flying := some ((sys.parties i).buckets.map UsageRow.of) }, sys.shared) :=
      (if_neg hflying).trans (if_neg hempty)
    refine h.of_turn hturn (fun k => ?_) (fun k => ?_) hstored hother
    · rw [sumAt_move_source _ _ hne]
      rfl
    · rw [sumAt_move_target _ _ hne, hnone, zero_add, ← h.buffered]
      rfl

theorem Accounted.answer (h : Accounted sys ledger) (i : ι) (carried : Bool) :
    Accounted (sys.step Process.turn (i, .answer carried))
      (ledger.after sys (i, .answer carried)) := by
  have hafter : ledger.after sys (i, .answer carried) =
      if carried && ((sys.parties i).flying.getD []).all UsageRow.checked then
        ledger.move (.flying i) .stored else ledger.move (.flying i) .lost := rfl
  have hturn : Process.turn (.answer carried) (sys.parties i) sys.shared =
      ({ sys.parties i with flying := none },
        if carried && ((sys.parties i).flying.getD []).all UsageRow.checked then
          sys.shared ++ (sys.parties i).flying.getD [] else sys.shared) := by
    obtain ⟨buckets, flying, droppedCount⟩ := sys.parties i
    cases flying with
    | none => cases carried <;> simp [Process.turn]
    | some rows => rfl
  rw [hafter]
  by_cases hcarried : (carried && ((sys.parties i).flying.getD []).all UsageRow.checked) = true
  · rw [if_pos hcarried] at hturn ⊢
    have hne : Place.flying i ≠ Place.stored := by simp
    refine h.of_turn hturn (fun k => ?_) (fun k => ?_) (fun k => ?_) fun j hj k => ⟨?_, ?_⟩
    · rw [h.buffered, sumAt_move_other _ _ (by simp) (by simp)]
    · rw [sumAt_move_source _ _ hne]
      rfl
    · rw [total_append, sumAt_move_target _ _ hne, h.stored, h.flying]
    · exact sumAt_move_other _ _ (by simp) (by simp)
    · exact sumAt_move_other _ _ (by simpa using hj) (by simp)
  · rw [if_neg hcarried] at hturn ⊢
    have hne : Place.flying i ≠ Place.lost := by simp
    refine h.of_turn hturn (fun k => ?_) (fun k => ?_) (fun k => ?_) fun j hj k => ⟨?_, ?_⟩
    · rw [h.buffered, sumAt_move_other _ _ (by simp) (by simp)]
    · rw [sumAt_move_source _ _ hne]
      rfl
    · rw [h.stored, sumAt_move_other _ _ (by simp) (by simp)]
    · exact sumAt_move_other _ _ (by simp) (by simp)
    · exact sumAt_move_other _ _ (by simpa using hj) (by simp)

theorem Accounted.die (h : Accounted sys ledger) (i : ι) :
    Accounted (sys.step Process.turn (i, .die)) (ledger.after sys (i, .die)) := by
  have hafter : ledger.after sys (i, .die) =
      (ledger.move (.buffered i) .lost).move (.flying i) .lost := rfl
  have hkept : ∀ place k, place ≠ .buffered i → place ≠ .flying i → place ≠ .lost →
      ((ledger.move (.buffered i) .lost).move (.flying i) .lost).sumAt place k =
        ledger.sumAt place k :=
    fun place k hbuffered hflying hlost => by
      rw [sumAt_move_other _ _ hflying hlost, sumAt_move_other _ _ hbuffered hlost]
  rw [hafter]
  refine h.of_turn rfl (fun k => ?_) (fun k => ?_) (fun k => ?_) fun j hj k => ⟨?_, ?_⟩
  · rw [sumAt_move_other _ _ (by simp) (by simp), sumAt_move_source _ _ (by simp)]
    rfl
  · rw [sumAt_move_source _ _ (by simp)]
    rfl
  · rw [h.stored, hkept _ _ (by simp) (by simp) (by simp)]
  · exact hkept _ _ (by simpa using hj) (by simp) (by simp)
  · exact hkept _ _ (by simp) (by simpa using hj) (by simp)

theorem Accounted.step (h : Accounted sys ledger) (event : ι × Turn) :
    Accounted (sys.step Process.turn event) (ledger.after sys event) := by
  obtain ⟨i, turn⟩ := event
  cases turn with
  | record o => exact h.record i o
  | drain => exact h.drain i
  | answer carried => exact h.answer i carried
  | die => exact h.die i

theorem operations_after (ledger : Ledger ι) (event : ι × Turn) :
    (ledger.after sys event).map Entry.operation =
      ledger.map Entry.operation ++ event.2.operation.toList := by
  obtain ⟨i, turn⟩ := event
  cases turn with
  | record o =>
    by_cases ho : o.attributed = true
    · simp [Ledger.after, Turn.operation, ho]
    · simp [Ledger.after, Turn.operation, ho]
  | drain =>
    have hafter : ledger.after sys (i, .drain) = if (sys.parties i).flying.isSome then ledger
        else ledger.move (.buffered i) (.flying i) := rfl
    have hnone : Turn.operation .drain = none := rfl
    rw [hafter, hnone, Option.toList_none, List.append_nil]
    split_ifs
    · rfl
    · exact operations_move _ _ ledger
  | answer carried =>
    have hafter : ledger.after sys (i, .answer carried) =
        if carried && ((sys.parties i).flying.getD []).all UsageRow.checked then
          ledger.move (.flying i) .stored else ledger.move (.flying i) .lost := rfl
    have hnone : Turn.operation (.answer carried) = none := rfl
    rw [hafter, hnone, Option.toList_none, List.append_nil]
    split_ifs <;> exact operations_move _ _ ledger
  | die =>
    have hafter : ledger.after sys (i, .die) =
        (ledger.move (.buffered i) .lost).move (.flying i) .lost := rfl
    have hnone : Turn.operation .die = none := rfl
    rw [hafter, hnone, Option.toList_none, List.append_nil, operations_move, operations_move]

theorem Accounted.sumAt_lost (h : Accounted sys ledger) (event : ι × Turn) (k : Key) :
    (ledger.after sys event).sumAt .lost k =
      ledger.sumAt .lost k + total ((sys.parties event.1).losing event.2) k := by
  obtain ⟨i, turn⟩ := event
  have hnone : total [] k = 0 := rfl
  cases turn with
  | record o =>
    change Ledger.sumAt (if o.attributed then ledger ++ [⟨o, .buffered i⟩] else ledger) .lost k =
      ledger.sumAt .lost k + total [] k
    rw [hnone, add_zero]
    split
    · rw [sumAt_append, sumAt_cons, if_neg (by simp), zero_add]
      exact add_zero _
    · rfl
  | drain =>
    change Ledger.sumAt (if (sys.parties i).flying.isSome then ledger
      else ledger.move (.buffered i) (.flying i)) .lost k = ledger.sumAt .lost k + total [] k
    rw [hnone, add_zero]
    split
    · rfl
    · exact sumAt_move_other _ _ (by simp) (by simp)
  | answer carried =>
    change Ledger.sumAt (if carried && ((sys.parties i).flying.getD []).all UsageRow.checked then
        ledger.move (.flying i) .stored else ledger.move (.flying i) .lost) .lost k =
      ledger.sumAt .lost k + total (if carried &&
        ((sys.parties i).flying.getD []).all UsageRow.checked then [] else
          (sys.parties i).flying.getD []) k
    split
    · rw [hnone, add_zero]
      exact sumAt_move_other _ _ (by simp) (by simp)
    · rw [sumAt_move_target _ _ (by simp), h.flying]
  | die =>
    change ((ledger.move (.buffered i) .lost).move (.flying i) .lost).sumAt .lost k =
      ledger.sumAt .lost k + total ((sys.parties i).buckets.map UsageRow.of ++
        (sys.parties i).flying.getD []) k
    rw [sumAt_move_target _ _ (by simp), sumAt_move_target _ _ (by simp),
      sumAt_move_other _ _ (by simp) (by simp), total_append, h.buffered, h.flying, add_assoc]

end Step

def System.run (events : List (ι × Turn)) : System ι :=
  Interleave.run (Pool.step Process.turn) (System.start ι) events

def operationsOf (events : List (ι × Turn)) : List Operation :=
  events.filterMap fun event => event.2.operation

def ledgerFrom : System ι → Ledger ι → List (ι × Turn) → Ledger ι
  | _, ledger, [] => ledger
  | sys, ledger, event :: events =>
    ledgerFrom (sys.step Process.turn event) (ledger.after sys event) events

theorem accounted_run {sys : System ι} {ledger : Ledger ι} (h : Accounted sys ledger)
    (events : List (ι × Turn)) :
    Accounted (Interleave.run (Pool.step Process.turn) sys events)
      (ledgerFrom sys ledger events) := by
  induction events generalizing sys ledger with
  | nil => exact h
  | cons event events ih => exact ih (h.step event)

theorem operations_ledgerFrom (sys : System ι) (ledger : Ledger ι) (events : List (ι × Turn)) :
    (ledgerFrom sys ledger events).map Entry.operation =
      ledger.map Entry.operation ++ operationsOf events := by
  induction events generalizing sys ledger with
  | nil => exact (List.append_nil _).symm
  | cons event events ih =>
    have hcons : operationsOf (event :: events) =
        event.2.operation.toList ++ operationsOf events := by
      rw [operationsOf, List.filterMap_cons]
      cases event.2.operation <;> rfl
    rw [ledgerFrom, ih, operations_after, hcons, List.append_assoc]

/-- All that the turns of a run lose. -/
def rowsLost : System ι → List (ι × Turn) → List UsageRow
  | _, [] => []
  | sys, event :: events =>
    (sys.parties event.1).losing event.2 ++ rowsLost (sys.step Process.turn event) events

theorem sumAt_lost_run {sys : System ι} {ledger : Ledger ι} (h : Accounted sys ledger)
    (events : List (ι × Turn)) (k : Key) :
    (ledgerFrom sys ledger events).sumAt .lost k =
      ledger.sumAt .lost k + total (rowsLost sys events) k := by
  induction events generalizing sys ledger with
  | nil => exact (add_zero _).symm
  | cons event events ih =>
    rw [ledgerFrom, ih (h.step event), h.sumAt_lost, rowsLost, total_append, add_assoc]

/-- Whatever fails and whoever dies, the operations of a run are divided among the table, the
processes and what failing inserts and deaths lose, and every sum there is that of its
operations. -/
theorem usage_accounted (events : List (ι × Turn)) :
    ∃ ledger : Ledger ι, ledger.map Entry.operation = operationsOf events ∧
      Accounted (System.run events) ledger ∧
      ∀ k, total (rowsLost (System.start ι) events) k = ledger.sumAt .lost k := by
  refine ⟨ledgerFrom (System.start ι) [] events, operations_ledgerFrom _ _ _,
    accounted_run accounted_start _, fun k => ?_⟩
  rw [sumAt_lost_run accounted_start]
  exact (zero_add _).symm

/-- No insert fails, no process dies, and the transports are those that the table takes. -/
def Turn.Harmless : Turn → Prop
  | .record o => o.transport ∈ ["mcp", "rest"]
  | .drain => True
  | .answer carried => carried = true
  | .die => False

/-- Nothing is lost yet, and nothing that a process holds will be refused. -/
structure Safe (sys : System ι) (ledger : Ledger ι) : Prop where
  buckets : ∀ i, ∀ bucket ∈ (sys.parties i).buckets, (UsageRow.of bucket).checked = true
  flying : ∀ i, ∀ row ∈ (sys.parties i).flying.getD [], row.checked = true
  kept : ∀ entry ∈ ledger, entry.place ≠ .lost

theorem checked_upsert {o : Operation} (ho : o.transport ∈ ["mcp", "rest"]) {buckets : Buckets}
    (h : ∀ bucket ∈ buckets, (UsageRow.of bucket).checked = true) :
    ∀ bucket ∈ Groups.upsert o.key (fold o) buckets, (UsageRow.of bucket).checked = true := by
  have hnew : ∀ c, (UsageRow.of (o.key, c)).checked = true := fun c => decide_eq_true ho
  induction buckets with
  | nil =>
    intro bucket hbucket
    rw [List.mem_singleton.mp hbucket]
    exact hnew _
  | cons first buckets ih =>
    obtain ⟨hfirst, hrest⟩ := List.forall_mem_cons.mp h
    rw [Groups.upsert]
    split_ifs with hkey
    · exact List.forall_mem_cons.mpr ⟨by rw [hkey]; exact hnew _, hrest⟩
    · exact List.forall_mem_cons.mpr ⟨hfirst, ih hrest⟩

theorem kept_move {ledger : Ledger ι} {a b : Place ι} (hb : b ≠ .lost)
    (h : ∀ entry ∈ ledger, entry.place ≠ .lost) :
    ∀ entry ∈ ledger.move a b, entry.place ≠ .lost := by
  intro entry hentry
  obtain ⟨entry, hmem, rfl⟩ := List.mem_map.mp hentry
  rw [Entry.moved]
  split_ifs
  · exact hb
  · exact h entry hmem

theorem Safe.of_turn {sys : System ι} {ledger : Ledger ι} (h : Safe sys ledger) {i : ι}
    {turn : Turn} {p : Process} {table : List UsageRow}
    (hturn : Process.turn turn (sys.parties i) sys.shared = (p, table))
    (hbuckets : ∀ bucket ∈ p.buckets, (UsageRow.of bucket).checked = true)
    (hflying : ∀ row ∈ p.flying.getD [], row.checked = true) {ledger' : Ledger ι}
    (hkept : ∀ entry ∈ ledger', entry.place ≠ .lost) :
    Safe (sys.step Process.turn (i, turn)) ledger' := by
  have hself : (sys.step Process.turn (i, turn)).parties i = p :=
    (Pool.step_self Process.turn sys i turn).trans (congrArg Prod.fst hturn)
  refine ⟨fun j => ?_, fun j => ?_, hkept⟩
  · by_cases hj : j = i
    · rwa [hj, hself]
    · rw [step_other (i, turn) hj]
      exact h.buckets j
  · by_cases hj : j = i
    · rwa [hj, hself]
    · rw [step_other (i, turn) hj]
      exact h.flying j

theorem Safe.record {sys : System ι} {ledger : Ledger ι} (h : Safe sys ledger) (i : ι)
    {o : Operation} (hevent : (Turn.record o).Harmless) :
    Safe (sys.step Process.turn (i, .record o)) (ledger.after sys (i, .record o)) := by
  have hafter : ledger.after sys (i, .record o) =
      if o.attributed then ledger ++ [⟨o, .buffered i⟩] else ledger := rfl
  rw [hafter]
  by_cases ho : o.attributed = true
  · have hturn : Process.turn (.record o) (sys.parties i) sys.shared =
      ({ sys.parties i with buckets := Groups.upsert o.key (fold o) (sys.parties i).buckets },
        sys.shared) := if_pos ho
    rw [if_pos ho]
    refine h.of_turn hturn (checked_upsert hevent (h.buckets i)) (h.flying i)
      fun entry hentry => ?_
    rcases List.mem_append.mp hentry with hold | hnew
    · exact h.kept entry hold
    · rw [List.mem_singleton.mp hnew]
      simp
  · have hturn : Process.turn (.record o) (sys.parties i) sys.shared =
      ({ sys.parties i with droppedCount := (sys.parties i).droppedCount + 1 }, sys.shared) :=
      if_neg ho
    rw [if_neg ho]
    exact h.of_turn hturn (h.buckets i) (h.flying i) h.kept

theorem Safe.drain {sys : System ι} {ledger : Ledger ι} (h : Safe sys ledger) (i : ι) :
    Safe (sys.step Process.turn (i, .drain)) (ledger.after sys (i, .drain)) := by
  have hafter : ledger.after sys (i, .drain) = if (sys.parties i).flying.isSome then ledger
      else ledger.move (.buffered i) (.flying i) := rfl
  rw [hafter]
  by_cases hflying : (sys.parties i).flying.isSome = true
  · have hturn : Process.turn .drain (sys.parties i) sys.shared = (sys.parties i, sys.shared) :=
      if_pos hflying
    rw [if_pos hflying]
    exact h.of_turn hturn (h.buckets i) (h.flying i) h.kept
  rw [if_neg hflying]
  have hkept := kept_move (a := .buffered i) (b := .flying i) (by simp) h.kept
  by_cases hempty : (sys.parties i).buckets = []
  · have hturn : Process.turn .drain (sys.parties i) sys.shared = (sys.parties i, sys.shared) :=
      (if_neg hflying).trans (if_pos hempty)
    exact h.of_turn hturn (h.buckets i) (h.flying i) hkept
  · have hturn : Process.turn .drain (sys.parties i) sys.shared =
      ({ sys.parties i with
          buckets := []
          flying := some ((sys.parties i).buckets.map UsageRow.of) }, sys.shared) :=
      (if_neg hflying).trans (if_neg hempty)
    refine h.of_turn hturn (fun _ hbucket => absurd hbucket List.not_mem_nil)
      (fun row hrow => ?_) hkept
    obtain ⟨bucket, hbucket, rfl⟩ := List.mem_map.mp hrow
    exact h.buckets i bucket hbucket

theorem Safe.answer {sys : System ι} {ledger : Ledger ι} (h : Safe sys ledger) (i : ι) :
    Safe (sys.step Process.turn (i, .answer true)) (ledger.after sys (i, .answer true)) := by
  have hall : ((sys.parties i).flying.getD []).all UsageRow.checked = true :=
    List.all_eq_true.mpr (h.flying i)
  have hafter : ledger.after sys (i, .answer true) = ledger.move (.flying i) .stored := by
    change (if true && ((sys.parties i).flying.getD []).all UsageRow.checked then
      ledger.move (.flying i) .stored else ledger.move (.flying i) .lost) = _
    rw [hall]
    rfl
  have hturn : ∃ table, Process.turn (.answer true) (sys.parties i) sys.shared =
      ({ sys.parties i with flying := none }, table) := by
    obtain ⟨buckets, flying, droppedCount⟩ := sys.parties i
    cases flying with
    | none => exact ⟨_, rfl⟩
    | some rows => exact ⟨_, rfl⟩
  obtain ⟨table, hturn⟩ := hturn
  rw [hafter]
  exact h.of_turn hturn (h.buckets i) (fun _ hrow => absurd hrow List.not_mem_nil)
    (kept_move (by simp) h.kept)

theorem Safe.step {sys : System ι} {ledger : Ledger ι} (h : Safe sys ledger) {event : ι × Turn}
    (hevent : event.2.Harmless) : Safe (sys.step Process.turn event) (ledger.after sys event) := by
  obtain ⟨i, turn⟩ := event
  cases turn with
  | record o => exact h.record i hevent
  | drain => exact h.drain i
  | answer carried =>
    obtain rfl : carried = true := hevent
    exact h.answer i
  | die => exact hevent.elim

theorem safe_run {sys : System ι} {ledger : Ledger ι} (h : Safe sys ledger)
    {events : List (ι × Turn)} (hevents : ∀ event ∈ events, event.2.Harmless) :
    ∀ entry ∈ ledgerFrom sys ledger events, entry.place ≠ .lost := by
  induction events generalizing sys ledger with
  | nil => exact h.kept
  | cons event events ih =>
    exact ih (h.step (hevents event List.mem_cons_self))
      fun event' hmem => hevents event' (List.mem_cons_of_mem event hmem)

theorem ne_place_of_sumAt {place : Place ι} {ledger : Ledger ι}
    (h : ∀ k, ledger.sumAt place k = 0) :
    ∀ entry ∈ ledger, entry.place ≠ place := by
  -- A place with nothing in its sums has no operation.
  induction ledger with
  | nil => exact fun entry hentry => absurd hentry List.not_mem_nil
  | cons first ledger ih =>
    have hcount : ∀ k, (if first.place = place ∧ first.operation.key = k then
        first.operation.counter else 0).count + (Ledger.sumAt ledger place k).count = 0 :=
      fun k => by
        have hsum := congrArg Counter.count (h k)
        rwa [sumAt_cons] at hsum
    refine List.forall_mem_cons.mpr ⟨fun hplace => ?_, ih fun k => ?_⟩
    · have hone := hcount first.operation.key
      rw [if_pos ⟨hplace, rfl⟩] at hone
      exact absurd (Nat.add_eq_zero_iff.mp hone).1 Nat.one_ne_zero
    · have hsum := h k
      by_cases hfirst : first.place = place ∧ first.operation.key = k
      · have hone := hcount k
        rw [if_pos hfirst] at hone
        exact absurd (Nat.add_eq_zero_iff.mp hone).1 Nat.one_ne_zero
      · rwa [sumAt_cons, if_neg hfirst, zero_add] at hsum

theorem sumAt_of_forall {place : Place ι} {ledger : Ledger ι}
    (h : ∀ entry ∈ ledger, entry.place = place) (k : Key) :
    ledger.sumAt place k = totalOf (ledger.map Entry.operation) k := by
  induction ledger with
  | nil => rfl
  | cons first ledger ih =>
    obtain ⟨hfirst, hrest⟩ := List.forall_mem_cons.mp h
    rw [sumAt_cons, ih hrest, totalOf, totalOf, List.map_cons, List.filter_cons]
    by_cases hk : first.operation.key = k
    · rw [if_pos ⟨hfirst, hk⟩, if_pos (decide_eq_true hk), List.map_cons, List.sum_cons]
    · rw [if_neg fun h' => hk h'.2, if_neg (by simpa using hk), zero_add]

def System.Flushed (sys : System ι) : Prop :=
  ∀ i, (sys.parties i).buckets = [] ∧ (sys.parties i).flying = none

/-- Where nothing fails, the sums of the table are those of all operations once they are flushed. -/
theorem usage_complete {events : List (ι × Turn)} (hevents : ∀ event ∈ events, event.2.Harmless)
    (hflushed : (System.run events).Flushed) (k : Key) :
    total (System.run events).shared k = totalOf (operationsOf events) k := by
  have hsafe : Safe (System.start ι) [] := ⟨fun _ _ h => absurd h List.not_mem_nil,
    fun _ _ h => absurd h List.not_mem_nil, fun _ h => absurd h List.not_mem_nil⟩
  have hstart : Accounted (System.start ι) [] := accounted_start
  have hacc := accounted_run hstart events
  have hkept := safe_run hsafe hevents
  have hbuffered : ∀ i k, (ledgerFrom (System.start ι) [] events).sumAt (.buffered i) k = 0 :=
    fun i k => by
      rw [← hacc.buffered, ← System.run, (hflushed i).1]
      rfl
  have hflying : ∀ i k, (ledgerFrom (System.start ι) [] events).sumAt (.flying i) k = 0 :=
    fun i k => by
      rw [← hacc.flying, ← System.run, (hflushed i).2]
      rfl
  have hstored : ∀ entry ∈ ledgerFrom (System.start ι) [] events, entry.place = .stored := by
    intro entry hentry
    cases hplace : entry.place with
    | buffered i => exact absurd hplace (ne_place_of_sumAt (hbuffered i) entry hentry)
    | flying i => exact absurd hplace (ne_place_of_sumAt (hflying i) entry hentry)
    | stored => rfl
    | lost => exact absurd hplace (hkept entry hentry)
  rw [System.run, hacc.stored, sumAt_of_forall hstored, operations_ledgerFrom]
  rfl

def searched : Operation where
  capability := "recall"
  transport := "mcp"
  tenantId := some "t"
  op := none
  status := "ok"
  durationMs := .nan
  minute := 0

/-- Two processes that count an operation each. -/
theorem usage_complete_two :
    total (System.run [(true, .record searched), (false, .record searched), (true, .drain),
      (false, .drain), (false, .answer true), (true, .answer true)]).shared searched.key =
        ⟨2, 0, 0⟩ := by
  refine (usage_complete (fun event hevent => ?_) (fun i => ?_) searched.key).trans (by decide)
  · simp only [List.mem_cons, List.not_mem_nil, or_false] at hevent
    have hmcp : searched.transport ∈ ["mcp", "rest"] := by decide
    rcases hevent with rfl | rfl | rfl | rfl | rfl | rfl
    · exact hmcp
    · exact hmcp
    · trivial
    · trivial
    · rfl
    · rfl
  · cases i <;> exact ⟨by decide, by decide⟩

end Ledger

end Memclaw.Usage
