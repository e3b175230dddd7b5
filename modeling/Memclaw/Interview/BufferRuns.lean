import Memclaw.Interview.Buffer

/-! The buffer through crashes: no seq is given twice, the lines stay in the order of their
seqs, and what was appended stays readable until it is pruned or compacted away. -/

namespace Memclaw.Interview

open Memclaw.Lib Memclaw.Lib.JsonText
open Memclaw.Lib.Interleave.Prog

/-- The seqs of the lines grow, and the meta file never promises more than the last line. -/
structure Disk.Ordered (d : Disk) : Prop where
  increasing : d.events.Pairwise fun a b => a.seq < b.seq
  metaLe : d.events ≠ [] → d.metaSeq ≤ tailSeq d.events

theorem tailSeq_concat (events : List InterviewEvent) (ev : InterviewEvent) :
    tailSeq (events ++ [ev]) = ev.seq + 1 := by
  rw [tailSeq, List.getLast?_append]
  rfl

theorem tailSeq_of_getLast? {kept events : List InterviewEvent}
    (h : kept.getLast? = events.getLast?) : tailSeq kept = tailSeq events := by
  rw [tailSeq, tailSeq, h]

theorem seq_lt_tailSeq {events : List InterviewEvent}
    (h : events.Pairwise fun a b => a.seq < b.seq) : ∀ ev ∈ events, ev.seq < tailSeq events := by
  rcases List.eq_nil_or_concat events with rfl | ⟨front, last, rfl⟩
  · simp
  · rw [List.concat_eq_append] at h ⊢
    intro ev hev
    rw [tailSeq_concat]
    rw [List.pairwise_append] at h
    rcases List.mem_append.mp hev with hfront | hlast
    · exact Nat.lt_succ_of_lt (h.2.2 ev hfront last List.mem_cons_self)
    · rw [List.mem_singleton.mp hlast]
      exact Nat.lt_succ_self _

theorem Disk.Ordered.nextSeq {d : Disk} (h : d.Ordered) (hsome : d.events ≠ []) :
    d.nextSeq = tailSeq d.events := max_eq_left (h.metaLe hsome)

theorem Disk.Ordered.append {d d' : Disk} (h : d.Ordered) (ev : InterviewEvent)
    (hseq : ev.seq = d.nextSeq) (hevents : d'.events = d.events ++ [ev])
    (hmeta : d'.metaSeq ≤ max d.metaSeq (ev.seq + 1)) :
    d'.Ordered ∧ d'.nextSeq = ev.seq + 1 := by
  have hold : d.metaSeq ≤ ev.seq + 1 := by
    rw [hseq]
    exact Nat.le_succ_of_le (le_max_right _ _)
  have htail : d'.metaSeq ≤ tailSeq d'.events := by
    rw [hevents, tailSeq_concat]
    exact hmeta.trans (max_le hold le_rfl)
  refine ⟨⟨?_, fun _ => htail⟩, ?_⟩
  · rw [hevents, List.pairwise_append]
    refine ⟨h.increasing, List.pairwise_singleton _ _, ?_⟩
    intro a ha b hb
    rw [List.mem_singleton.mp hb, hseq]
    exact Nat.lt_of_lt_of_le (seq_lt_tailSeq h.increasing a ha) (le_max_left _ _)
  · rw [Disk.nextSeq, max_eq_left htail, hevents, tailSeq_concat]

theorem Disk.Ordered.meta {d d' : Disk} (h : d.Ordered) (hsome : d.events ≠ [])
    (hevents : d'.events = d.events) (hmeta : d'.metaSeq ≤ d.nextSeq) :
    d'.Ordered ∧ d'.nextSeq = d.nextSeq := by
  -- While there are lines, the meta file does not matter as long as it promises no more.
  have htail : d'.metaSeq ≤ tailSeq d'.events := by
    rw [hevents, ← h.nextSeq hsome]
    exact hmeta
  refine ⟨⟨?_, fun _ => htail⟩, ?_⟩
  · rw [hevents]
    exact h.increasing
  · rw [Disk.nextSeq, max_eq_left htail, hevents, h.nextSeq hsome]

theorem Disk.Ordered.drop {d : Disk} (h : d.Ordered) (d' : Disk) (hsub : d'.events.Sublist d.events)
    (hlast : d'.events ≠ [] → d'.events.getLast? = d.events.getLast?)
    (hmeta : d'.metaSeq = d.nextSeq) : d'.Ordered ∧ d'.nextSeq = d.nextSeq := by
  -- What is dropped is made up for by the meta file.
  have htail : d'.events ≠ [] → tailSeq d'.events = d.nextSeq := by
    intro hsome
    have hsome' : d.events ≠ [] := by
      rintro hnil
      rw [hnil] at hsub
      exact hsome (List.sublist_nil.mp hsub)
    rw [tailSeq_of_getLast? (hlast hsome), h.nextSeq hsome']
  refine ⟨⟨h.increasing.sublist hsub, fun hsome => ?_⟩, ?_⟩
  · rw [htail hsome, hmeta]
  · rw [Disk.nextSeq, hmeta]
    refine max_eq_right ?_
    rcases eq_or_ne d'.events [] with hnil | hsome
    · rw [hnil]
      exact Nat.zero_le _
    · rw [htail hsome]

theorem Untouched.ordered {d d' : Disk} {calls : List FileCall} (h : Untouched d calls d')
    (hd : d.Ordered) : d'.Ordered := by
  constructor
  · rw [h.events]
    exact hd.increasing
  · rw [h.events, h.metaSeq]
    exact hd.metaLe

theorem getLast?_newerHalf (events : List InterviewEvent) (hsome : newerHalf events ≠ []) :
    (newerHalf events).getLast? = events.getLast? := by
  rw [newerHalf, List.getLast?_drop, if_neg]
  exact fun hall => hsome (List.drop_eq_nil_iff.mpr hall)

theorem getLast?_uncommitted {committedSeq : ℤ} {events : List InterviewEvent}
    (h : events.Pairwise fun a b => a.seq < b.seq)
    (hsome : uncommitted committedSeq events ≠ []) :
    (uncommitted committedSeq events).getLast? = events.getLast? := by
  rcases List.eq_nil_or_concat events with rfl | ⟨front, last, rfl⟩
  · rfl
  · rw [List.concat_eq_append] at h hsome ⊢
    have hlast : committedSeq < last.seq := by
      obtain ⟨ev, hev⟩ := List.exists_mem_of_ne_nil _ hsome
      obtain ⟨hmem, hlt⟩ := List.mem_filter.mp hev
      have hlt : committedSeq < ev.seq := by simpa using hlt
      rcases List.mem_append.mp hmem with hfront | hlast
      · have hle := (List.pairwise_append.mp h).2.2 ev hfront last List.mem_cons_self
        omega
      · rw [← List.mem_singleton.mp hlast]
        exact hlt
    rw [uncommitted, List.filter_append, List.filter_cons_of_pos (by simpa using hlast)]
    simp

theorem sublist_newerHalf (events : List InterviewEvent) : (newerHalf events).Sublist events :=
  List.drop_sublist _ _

theorem sublist_uncommitted (committedSeq : ℤ) (events : List InterviewEvent) :
    (uncommitted committedSeq events).Sublist events := List.filter_sublist

theorem take_from_seq {events : List InterviewEvent}
    (h : events.Pairwise fun a b => a.seq < b.seq) {ev : InterviewEvent} (hev : ev ∈ events) :
    (events.filter fun e => (ev.seq : ℤ) ≤ e.seq).take 1 = [ev] := by
  obtain ⟨front, back, rfl⟩ := List.append_of_mem hev
  have hfront : front.filter (fun e => (ev.seq : ℤ) ≤ e.seq) = [] := by
    rw [List.filter_eq_nil_iff]
    intro e he
    have hlt := (List.pairwise_append.mp h).2.2 e he ev List.mem_cons_self
    simp [hlt]
  rw [List.filter_append, hfront, List.nil_append, List.filter_cons_of_pos (by simp)]
  rfl

/-- `returned` and `live` are ghosts: the seqs that callers got, in their order, and the events
behind them that no prune was told of and no compaction has dropped. -/
structure Node where
  disk : Disk
  state : Option Seeded
  returned : List ℕ
  live : List InterviewEvent

def Node.seeded (n : Node) : Seeded := (n.disk.settled n.state).1

def Node.olderHalf (n : Node) (ts : Utf16) (input : InterviewEventInput) : List InterviewEvent :=
  let events := n.disk.events ++ [addedEvent ts input n.seeded]
  events.take (events.length / 2)

/-- Only over the limit, and only once the buffer is swapped, is anything dropped. -/
def Node.survivors (n : Node) (ts : Utf16) (input : InterviewEventInput)
    (calls : List FileCall) : List InterviewEvent :=
  if Overflows ts input n.seeded ∧ .renameTmp ∈ calls then
    n.live.filter fun ev => ev ∉ n.olderHalf ts input
  else n.live

def Node.append (n : Node) (ts : Utf16) (input : InterviewEventInput) : Node :=
  let call := appendInterviewEvent ts input n.state
  let result := finish serve call n.disk
  { disk := result.2
    state := some result.1.2
    returned := n.returned ++ [result.1.1]
    live := n.survivors ts input (trace serve call n.disk) ++ [newEvent result.1.1 ts input] }

def Node.read (n : Node) (sinceSeq : ℤ) (maxCount : ℕ) : Node :=
  let result := finish serve (readInterviewEvents sinceSeq maxCount n.state) n.disk
  { n with disk := result.2, state := some result.1.2 }

def Node.prune (n : Node) (committedSeq : ℤ) : Node :=
  let result := finish serve (pruneInterviewBuffer committedSeq n.state) n.disk
  { n with
    disk := result.2
    state := some result.1
    live := uncommitted committedSeq n.live }

/-- A call goes through, or the process dies in it and the next one starts unseeded. A process
that dies between two calls dies before the first file call of the next. -/
inductive Node.Step (n : Node) : Node → Prop
  | append (ts : Utf16) (input : InterviewEventInput) : Step n (n.append ts input)
  | read (sinceSeq : ℤ) (maxCount : ℕ) : Step n (n.read sinceSeq maxCount)
  | prune (committedSeq : ℤ) : Step n (n.prune committedSeq)
  | appendDies {ts : Utf16} {input : InterviewEventInput} {calls : List FileCall} {d : Disk}
      (h : Crashes serve Torn (appendInterviewEvent ts input n.state) n.disk calls d) :
      Step n ⟨d, none, n.returned, n.survivors ts input calls⟩
  | readDies {sinceSeq : ℤ} {maxCount : ℕ} {calls : List FileCall} {d : Disk}
      (h : Crashes serve Torn (readInterviewEvents sinceSeq maxCount n.state) n.disk calls d) :
      Step n ⟨d, none, n.returned, n.live⟩
  | pruneDies {committedSeq : ℤ} {calls : List FileCall} {d : Disk}
      (h : Crashes serve Torn (pruneInterviewBuffer committedSeq n.state) n.disk calls d) :
      Step n ⟨d, none, n.returned, uncommitted committedSeq n.live⟩

def Node.start : Node := ⟨⟨none, none, none⟩, none, [], []⟩

inductive Reachable : Node → Prop
  | start : Reachable .start
  | step {n n' : Node} (h : Reachable n) (hstep : n.Step n') : Reachable n'

structure Node.Sound (n : Node) : Prop where
  ordered : n.disk.Ordered
  agrees : n.disk.Agrees n.state
  returned : n.returned.Pairwise (· < ·)
  below : ∀ seq ∈ n.returned, seq < n.disk.nextSeq
  live : ∀ ev ∈ n.live, ev ∈ n.disk.events

theorem agrees_none (d : Disk) : d.Agrees none := fun _ h => absurd h (by simp)

theorem agrees_some {d : Disk} {s : Seeded} (hseq : s.nextSeq = d.nextSeq) (hclean : Clean d.raw) :
    d.Agrees (some s) := by
  intro s' hs'
  rw [← Option.some.inj hs']
  exact ⟨hseq, hclean⟩

section Steps

variable {n : Node} {ts : Utf16} {input : InterviewEventInput}

theorem Node.Sound.settles (h : n.Sound) : n.disk.Settles n.seeded (n.disk.settled n.state).2 :=
  h.agrees.settles

theorem Node.Sound.ordered_settled (h : n.Sound) : (n.disk.settled n.state).2.Ordered := by
  have huntouched : Untouched n.disk [] (n.disk.settled n.state).2 :=
    h.settles.untouched List.not_mem_nil
  exact huntouched.ordered h.ordered

theorem Node.Sound.of_untouched (h : n.Sound) {calls : List FileCall} {d : Disk}
    (hd : Untouched n.disk calls d) {live : List InterviewEvent} (hlive : live ⊆ n.live) :
    Node.Sound ⟨d, none, n.returned, live⟩ where
  ordered := hd.ordered h.ordered
  agrees := agrees_none d
  returned := h.returned
  below := by
    rw [hd.nextSeq]
    exact h.below
  live := by
    rw [hd.events]
    exact fun ev hev => h.live ev (hlive hev)

theorem Node.survivors_subset (n : Node) (calls : List FileCall) :
    n.survivors ts input calls ⊆ n.live := by
  unfold survivors
  split_ifs
  · exact List.filter_sublist.subset
  · exact fun _ hev => hev

theorem Node.mem_newerHalf {calls : List FileCall} {ev : InterviewEvent}
    (hswap : Overflows ts input n.seeded ∧ .renameTmp ∈ calls)
    (hlive : ∀ ev ∈ n.live, ev ∈ n.disk.events) (hev : ev ∈ n.survivors ts input calls) :
    ev ∈ newerHalf (n.disk.events ++ [addedEvent ts input n.seeded]) := by
  rw [survivors, if_pos hswap, List.mem_filter] at hev
  obtain ⟨hmem, hkept⟩ := hev
  have hall : ev ∈ n.disk.events ++ [addedEvent ts input n.seeded] :=
    List.mem_append_left _ (hlive ev hmem)
  rw [← List.take_append_drop ((n.disk.events ++ [addedEvent ts input n.seeded]).length / 2)
    (n.disk.events ++ _), List.mem_append] at hall
  rcases hall with holder | hnewer
  · exact absurd holder (of_decide_eq_true hkept)
  · exact hnewer

theorem mem_newerHalf_concat (events : List InterviewEvent) (ev : InterviewEvent) :
    ev ∈ newerHalf (events ++ [ev]) := by
  have hlen : (events ++ [ev]).length / 2 ≤ events.length := by
    rw [List.length_append, List.length_singleton]
    omega
  rw [newerHalf, List.drop_append_of_le_length hlen]
  exact List.mem_append_right _ List.mem_cons_self

theorem clean_written (ts : Utf16) (input : InterviewEventInput) (s : Seeded) (d : Disk) :
    Clean (d.written ts input s).raw := by
  rw [Disk.written, Disk.raw_appendBuffer, InterviewEvent.line, ← List.append_assoc]
  exact clean_newline _

theorem Node.Sound.written (h : n.Sound) (ts : Utf16) (input : InterviewEventInput) :
    ((n.disk.settled n.state).2.written ts input n.seeded).events =
        n.disk.events ++ [addedEvent ts input n.seeded] ∧
      ((n.disk.settled n.state).2.written ts input n.seeded).Ordered ∧
      ((n.disk.settled n.state).2.written ts input n.seeded).nextSeq = n.disk.nextSeq + 1 := by
  have hevents : ((n.disk.settled n.state).2.written ts input n.seeded).events =
      n.disk.events ++ [addedEvent ts input n.seeded] := by
    rw [Disk.events_written h.settles.clean, h.settles.events]
  have hkept := h.ordered.append (addedEvent ts input n.seeded) h.settles.nextSeq hevents
    (by rw [Disk.written, Disk.metaSeq_appendBuffer, h.settles.metaSeq]; exact le_max_left _ _)
  refine ⟨hevents, hkept.1, ?_⟩
  rw [hkept.2]
  show n.seeded.nextSeq + 1 = _
  rw [h.settles.nextSeq]

theorem Node.finish_append (n : Node) (ts : Utf16) (input : InterviewEventInput) :
    finish serve (appendInterviewEvent ts input n.state) n.disk =
      finish serve (appendSeeded ts input n.seeded) (n.disk.settled n.state).2 := by
  rw [appendInterviewEvent_eq, finish_bind, finish_ensureSeeded]
  rfl

theorem Node.Sound.append (h : n.Sound) (ts : Utf16) (input : InterviewEventInput) :
    (n.append ts input).Sound := by
  obtain ⟨hevents, hordered, hnext⟩ := h.written ts input
  have hseq : n.seeded.nextSeq = n.disk.nextSeq := h.settles.nextSeq
  have hgrown : (n.returned ++ [n.seeded.nextSeq]).Pairwise (· < ·) := by
    rw [List.pairwise_append]
    refine ⟨h.returned, List.pairwise_singleton _ _, ?_⟩
    intro a ha b hb
    rw [List.mem_singleton.mp hb, hseq]
    exact h.below a ha
  have hbelow : ∀ seq ∈ n.returned ++ [n.seeded.nextSeq], seq < n.disk.nextSeq + 1 := by
    intro seq hmem
    rcases List.mem_append.mp hmem with hold | hnew
    · exact Nat.lt_succ_of_lt (h.below seq hold)
    · rw [List.mem_singleton.mp hnew, hseq]
      exact Nat.lt_succ_self _
  have htrace : .renameTmp ∈ trace serve (appendInterviewEvent ts input n.state) n.disk ↔
      Overflows ts input n.seeded := by
    rw [appendInterviewEvent_eq, trace_bind, List.mem_append, finish_ensureSeeded]
    constructor
    · rintro (hseed | hswap)
      · exact absurd hseed (trace_ensureSeeded _ _)
      · exact (renameTmp_mem_trace_appendSeeded _ _ _ _).mp hswap
    · exact fun hover => .inr ((renameTmp_mem_trace_appendSeeded _ _ _ _).mpr hover)
  have hfinish := n.finish_append ts input
  rw [finish_appendSeeded] at hfinish
  unfold Node.append
  dsimp only
  split_ifs at hfinish with hover
  · have hkept := hordered.drop (.swapped
      (newerHalf ((n.disk.settled n.state).2.written ts input n.seeded).events)
      (n.seeded.nextSeq + 1))
      (by rw [Disk.events_swapped]; exact sublist_newerHalf _)
      (by rw [Disk.events_swapped]; exact getLast?_newerHalf _)
      (by rw [Disk.metaSeq_swapped, hnext, hseq])
    rw [hfinish]
    refine ⟨hkept.1, agrees_some ?_ (clean_body _), hgrown, ?_, ?_⟩
    · rw [hkept.2, hnext, hseq]
    · rw [hkept.2, hnext]
      exact hbelow
    · rw [Disk.events_swapped, hevents]
      intro ev hev
      rcases List.mem_append.mp hev with hold | hnew
      · exact mem_newerHalf ⟨hover, htrace.mpr hover⟩ h.live hold
      · rw [List.mem_singleton.mp hnew]
        exact mem_newerHalf_concat _ _
  · rw [hfinish]
    refine ⟨hordered, agrees_some ?_ (clean_written _ _ _ _), hgrown, ?_, ?_⟩
    · rw [hnext, hseq]
    · rw [hnext]
      exact hbelow
    · rw [hevents]
      intro ev hev
      rcases List.mem_append.mp hev with hold | hnew
      · exact List.mem_append_left _ (h.live ev (n.survivors_subset _ hold))
      · exact List.mem_append_right _ hnew

theorem Node.Sound.appendDies (h : n.Sound) {calls : List FileCall} {d : Disk}
    (hdies : Crashes serve Torn (appendInterviewEvent ts input n.state) n.disk calls d) :
    Node.Sound ⟨d, none, n.returned, n.survivors ts input calls⟩ := by
  obtain ⟨hevents, hordered, hnext⟩ := h.written ts input
  have hseq : n.seeded.nextSeq = n.disk.nextSeq := h.settles.nextSeq
  rw [appendInterviewEvent_eq] at hdies
  rcases hdies.of_bind with hseed | ⟨later, hcalls, hlater⟩
  · exact h.of_untouched (crashes_ensureSeeded hseed) (n.survivors_subset _)
  have hsettled := h.settles.untouched (trace_ensureSeeded n.state n.disk)
  rw [finish_ensureSeeded] at hlater
  rcases crashes_appendSeeded h.settles.clean hlater with
    hearly | ⟨-, hlines, hmeta⟩ | ⟨hover, hswap, hlines, hmeta⟩
  · exact h.of_untouched (hsettled.trans hearly) (n.survivors_subset calls)
  · have hle : d.metaSeq ≤ max n.disk.metaSeq (n.seeded.nextSeq + 1) := by
      rw [h.settles.metaSeq] at hmeta
      rcases hmeta with hmeta | hmeta | hmeta
      · exact hmeta.le.trans (le_max_left _ _)
      · exact hmeta.le.trans (Nat.zero_le _)
      · exact hmeta.le.trans (le_max_right _ _)
    rw [h.settles.events] at hlines
    obtain ⟨hd, hdnext⟩ := h.ordered.append (addedEvent ts input n.seeded) hseq hlines hle
    refine ⟨hd, agrees_none d, h.returned, fun seq hmem => ?_, ?_⟩
    · show seq < d.nextSeq
      rw [hdnext]
      exact Nat.lt_succ_of_lt (Nat.lt_of_lt_of_eq (h.below seq hmem) hseq.symm)
    · dsimp only
      rw [hlines]
      intro ev hev
      exact List.mem_append_left _ (h.live ev (n.survivors_subset _ hev))
  · rw [h.settles.events] at hlines
    obtain ⟨hd, hdnext⟩ := hordered.drop d
      (by rw [hlines, hevents]; exact sublist_newerHalf _)
      (by rw [hlines, hevents]; exact getLast?_newerHalf _)
      (by rw [hmeta, hnext]; exact congrArg (· + 1) hseq)
    refine ⟨hd, agrees_none d, h.returned, fun seq hmem => ?_, ?_⟩
    · show seq < d.nextSeq
      rw [hdnext, hnext]
      exact Nat.lt_succ_of_lt (h.below seq hmem)
    · dsimp only
      rw [hlines]
      intro ev hev
      exact mem_newerHalf ⟨hover, hcalls ▸ List.mem_append_right _ hswap⟩ h.live hev

theorem Node.Sound.read (h : n.Sound) (sinceSeq : ℤ) (maxCount : ℕ) :
    (n.read sinceSeq maxCount).Sound := by
  unfold Node.read
  dsimp only
  rw [finish_readInterviewEvents]
  refine ⟨h.ordered_settled, agrees_some ?_ h.settles.clean, h.returned, ?_, ?_⟩
  · exact h.settles.nextSeq.trans h.settles.nextSeq_eq.symm
  · rw [h.settles.nextSeq_eq]
    exact h.below
  · rw [h.settles.events]
    exact h.live

theorem Node.Sound.readDies (h : n.Sound) {sinceSeq : ℤ} {maxCount : ℕ} {calls : List FileCall}
    {d : Disk}
    (hdies : Crashes serve Torn (readInterviewEvents sinceSeq maxCount n.state) n.disk calls d) :
    Node.Sound ⟨d, none, n.returned, n.live⟩ := by
  rcases hdies.of_bind with hseed | ⟨later, rfl, hlater⟩
  · exact h.of_untouched (crashes_ensureSeeded hseed) fun _ hev => hev
  · rw [finish_ensureSeeded] at hlater
    have hsafe : Safe Reads (fun _ _ => True) none (do
        let events ← load
        return ((events.filter fun ev => sinceSeq ≤ ev.seq).take maxCount, n.seeded)) :=
      ⟨.inl rfl, fun _ => trivial⟩
    obtain ⟨rfl, hcalls⟩ := Crashes.of_reads serve_of_reads not_torn_of_reads hsafe hlater
    have hreads : Untouched (n.disk.settled n.state).2 later (n.disk.settled n.state).2 :=
      .of_eq ⟨renameTmp_notMem_of_reads hcalls, rfl⟩
    exact h.of_untouched ((h.settles.untouched (trace_ensureSeeded n.state n.disk)).trans hreads)
      fun _ hev => hev

theorem Node.Sound.mem_uncommitted (h : n.Sound) {committedSeq : ℤ} {ev : InterviewEvent}
    (hev : ev ∈ uncommitted committedSeq n.live) : ev ∈ uncommitted committedSeq n.disk.events := by
  obtain ⟨hmem, hlt⟩ := List.mem_filter.mp hev
  exact List.mem_filter.mpr ⟨h.live ev hmem, hlt⟩

theorem ne_nil_of_uncommitted {committedSeq : ℤ} {events : List InterviewEvent}
    (h : (uncommitted committedSeq events).length ≠ events.length) : events ≠ [] := by
  rintro rfl
  exact h rfl

theorem Node.finish_prune (n : Node) (committedSeq : ℤ) :
    finish serve (pruneInterviewBuffer committedSeq n.state) n.disk =
      finish serve (pruneSeeded committedSeq n.seeded) (n.disk.settled n.state).2 := by
  rw [pruneInterviewBuffer_eq, finish_bind, finish_ensureSeeded]
  rfl

theorem Node.Sound.disk_prune (h : n.Sound) (committedSeq : ℤ) :
    (n.prune committedSeq).disk.Ordered ∧
      (n.prune committedSeq).disk.events = uncommitted committedSeq n.disk.events ∧
      (n.prune committedSeq).disk.nextSeq = n.disk.nextSeq := by
  -- The disk that a prune leaves.
  unfold Node.prune
  dsimp only
  rw [n.finish_prune, finish_pruneSeeded]
  split_ifs with hnone
  · refine ⟨h.ordered_settled, ?_, h.settles.nextSeq_eq⟩
    rw [h.settles.events] at hnone ⊢
    exact ((sublist_uncommitted _ _).eq_of_length hnone).symm
  · obtain ⟨hd, hdnext⟩ := h.ordered_settled.drop (.swapped
      (uncommitted committedSeq (n.disk.settled n.state).2.events) n.seeded.nextSeq)
      (by rw [Disk.events_swapped]; exact sublist_uncommitted _ _)
      (by rw [Disk.events_swapped]; exact getLast?_uncommitted h.ordered_settled.increasing)
      (by rw [Disk.metaSeq_swapped, h.settles.nextSeq, h.settles.nextSeq_eq])
    refine ⟨hd, ?_, hdnext.trans h.settles.nextSeq_eq⟩
    rw [Disk.events_swapped, h.settles.events]

theorem Node.Sound.prune (h : n.Sound) (committedSeq : ℤ) : (n.prune committedSeq).Sound := by
  obtain ⟨hordered, hevents, hnext⟩ := h.disk_prune committedSeq
  refine ⟨hordered, ?_, h.returned, ?_, ?_⟩
  · unfold Node.prune at hnext ⊢
    dsimp only at hnext ⊢
    rw [n.finish_prune, finish_pruneSeeded] at hnext ⊢
    split_ifs at hnext ⊢
    · exact agrees_some (h.settles.nextSeq.trans hnext.symm) h.settles.clean
    · exact agrees_some (h.settles.nextSeq.trans hnext.symm) (clean_body _)
  · rw [hnext]
    exact h.below
  · rw [hevents]
    exact fun ev hev => h.mem_uncommitted hev

theorem Node.Sound.pruneDies (h : n.Sound) {committedSeq : ℤ} {calls : List FileCall} {d : Disk}
    (hdies : Crashes serve Torn (pruneInterviewBuffer committedSeq n.state) n.disk calls d) :
    Node.Sound ⟨d, none, n.returned, uncommitted committedSeq n.live⟩ := by
  have hsub : uncommitted committedSeq n.live ⊆ n.live := (sublist_uncommitted _ _).subset
  have hseq := h.settles.nextSeq
  rw [pruneInterviewBuffer_eq] at hdies
  rcases hdies.of_bind with hseed | ⟨later, rfl, hlater⟩
  · exact h.of_untouched (crashes_ensureSeeded hseed) hsub
  rw [finish_ensureSeeded] at hlater
  rcases crashes_pruneSeeded hlater with hearly | ⟨hsome, ⟨hlines, hmeta⟩ | ⟨hlines, hmeta⟩⟩
  · exact h.of_untouched ((h.settles.untouched (trace_ensureSeeded n.state n.disk)).trans hearly) hsub
  · have hle : d.metaSeq ≤ (n.disk.settled n.state).2.nextSeq := by
      rcases hmeta with hmeta | hmeta | hmeta
      · exact hmeta.le.trans (le_max_right _ _)
      · exact hmeta.le.trans (Nat.zero_le _)
      · rw [hmeta, h.settles.nextSeq_eq]
        exact hseq.le
    obtain ⟨hd, hdnext⟩ := h.ordered_settled.meta (ne_nil_of_uncommitted hsome) hlines hle
    refine ⟨hd, agrees_none d, h.returned, ?_, ?_⟩
    · rw [hdnext, h.settles.nextSeq_eq]
      exact h.below
    · rw [hlines, h.settles.events]
      exact fun ev hev => h.live ev (hsub hev)
  · obtain ⟨hd, hdnext⟩ := h.ordered_settled.drop d
      (by rw [hlines]; exact sublist_uncommitted _ _)
      (by rw [hlines]; exact getLast?_uncommitted h.ordered_settled.increasing)
      (by rw [hmeta, h.settles.nextSeq_eq]; exact hseq)
    refine ⟨hd, agrees_none d, h.returned, ?_, ?_⟩
    · rw [hdnext, h.settles.nextSeq_eq]
      exact h.below
    · rw [hlines, h.settles.events]
      exact fun ev hev => h.mem_uncommitted hev

theorem Node.Sound.step (h : n.Sound) {n' : Node} (hstep : n.Step n') : n'.Sound := by
  cases hstep with
  | append ts input => exact h.append ts input
  | read sinceSeq maxCount => exact h.read sinceSeq maxCount
  | prune committedSeq => exact h.prune committedSeq
  | appendDies hdies => exact h.appendDies hdies
  | readDies hdies => exact h.readDies hdies
  | pruneDies hdies => exact h.pruneDies hdies

end Steps

theorem sound_start : Node.start.Sound where
  ordered := ⟨List.Pairwise.nil, fun h => absurd rfl h⟩
  agrees := agrees_none _
  returned := List.Pairwise.nil
  below := by simp [Node.start]
  live := by simp [Node.start]

theorem Reachable.sound {n : Node} (h : Reachable n) : n.Sound := by
  induction h with
  | start => exact sound_start
  | step _ hstep ih => exact ih.step hstep

/-- Whatever calls and crashes came before, the seqs that callers got have grown, the lines of the
buffer are in the order of their seqs, and every live event is read back as it was appended. -/
theorem buffer_survives {n : Node} (h : Reachable n) :
    n.returned.Pairwise (· < ·) ∧ n.disk.events.Pairwise (fun a b => a.seq < b.seq) ∧
      ∀ ev ∈ n.live, (finish serve (readInterviewEvents ev.seq 1 n.state) n.disk).1.1 = [ev] := by
  have hsound := h.sound
  refine ⟨hsound.returned, hsound.ordered.increasing, fun ev hev => ?_⟩
  rw [finish_readInterviewEvents, hsound.settles.events]
  exact take_from_seq hsound.ordered.increasing (hsound.live ev hev)

def Node.died (n : Node) : Node := ⟨n.disk, none, n.returned, n.live⟩

theorem step_died (n : Node) : n.Step n.died :=
  .readDies (.before (readInterviewEvents 0 0 n.state) n.disk)

def twoEvents : Node := ((Node.start.append [] default).died.append [] default).died.prune 0

/-- Two events, with a death after each; the first is pruned. -/
theorem buffer_survives_two :
    twoEvents.live.map (·.seq) = [1] ∧ twoEvents.returned.Pairwise (· < ·) ∧
      twoEvents.disk.events.Pairwise (fun a b => a.seq < b.seq) ∧
      ∀ ev ∈ twoEvents.live,
        (finish serve (readInterviewEvents ev.seq 1 twoEvents.state) twoEvents.disk).1.1 = [ev] := by
  have hfirst : Reachable (Node.start.append [] default) := .step .start (.append [] default)
  have hsecond : Reachable ((Node.start.append [] default).died.append [] default) :=
    .step (.step hfirst (step_died _)) (.append [] default)
  have hreachable : Reachable twoEvents := .step (.step hsecond (step_died _)) (.prune 0)
  exact ⟨by decide +kernel, buffer_survives hreachable⟩

end Memclaw.Interview
