import Memclaw.Interview.ServiceDefs

/-! The windows whose rows were committed. A retry has the attempt id of the try before it only
where it reads the same window again; where events came in between, it does not. -/

namespace Memclaw.Interview

open Memclaw.Lib.Interleave Memclaw.Write

def Submit.window (body : Submit) : ℕ × ℕ := (body.cursorFrom, body.cursorTo)

def Submit.Covers (body : Submit) (ev : InterviewEvent) : Prop :=
  body.cursorFrom ≤ ev.seq ∧ ev.seq ≤ body.cursorTo

def Submit.Overlaps (a b : Submit) : Prop :=
  a.cursorFrom ≤ b.cursorTo ∧ b.cursorFrom ≤ a.cursorTo

instance (body : Submit) (ev : InterviewEvent) : Decidable (body.Covers ev) :=
  inferInstanceAs (Decidable (_ ∧ _))

/-- Every event is covered by at most one window with rows. -/
def System.ReportedOnce (s : System) : Prop :=
  ∀ ev ∈ s.appended, ∀ a ∈ s.committed, ∀ b ∈ s.committed, a.body.Covers ev → b.body.Covers ev →
    a.body.window = b.body.window

instance (s : System) : Decidable s.ReportedOnce := by
  unfold System.ReportedOnce
  infer_instance

def Reading.asked (read : Reading) : List InterviewEvent :=
  read.buffer.filter fun ev => read.cursor < ev.seq

/-- Between the two reads nothing of the old window was pruned, the command asks for the same
first event, and nothing was appended unless the old window was cut by the cap. -/
def Sent.Repeats (new old : Sent) : Prop :=
  old.body.events ⊆ new.read.buffer ∧ new.read.cursor < old.body.cursorFrom ∧
    (∀ ev ∈ new.read.asked, old.body.cursorFrom ≤ ev.seq) ∧
    (new.read.appended = old.read.appended ∨
      old.body.events.length = INTERVIEW_SUBMIT_MAX_EVENTS)

/-- As many events as the cap allows are asked for before the old window. -/
def Sent.CutBefore (new old : Sent) : Prop :=
  INTERVIEW_SUBMIT_MAX_EVENTS ≤
    (new.read.asked.filter fun ev => ev.seq < old.body.cursorFrom).length

/-- What may lie between two reads: the stored cursor had passed the old window when the new
command was queued, the old window was pruned, or it is read again or not reached. -/
def Sent.Follows (new old : Sent) : Prop :=
  (old.body.cursorTo : ℤ) ≤ new.read.cursor ∨ (∀ ev ∈ old.body.events, ev ∉ new.read.buffer) ∨
    new.CutBefore old ∨ new.Repeats old

instance (new old : Sent) : Decidable (new.Repeats old) := by
  unfold Sent.Repeats
  infer_instance

instance (new old : Sent) : Decidable (new.CutBefore old) := inferInstanceAs (Decidable (_ ≤ _))

instance (new old : Sent) : Decidable (new.Follows old) := inferInstanceAs (Decidable (_ ∨ _))

/-- Of two submits, the one that was read later follows the other. -/
def Sent.Settled (a b : Sent) : Prop :=
  if a.read.appended.length ≤ b.read.appended.length then b.Follows a else a.Follows b

instance (a b : Sent) : Decidable (a.Settled b) := inferInstanceAs (Decidable (ite _ _ _))

def System.writes (s : System) (event : Event) : List Sent :=
  match event with
  | .turn run reply =>
    match s.runs[run]? with
    | some ⟨sent, .call c _⟩ => if commits reply c then [sent] else []
    | _ => []
  | _ => []

/-- Where rows are committed, the submit is settled with all that have rows. -/
def System.Settles (s : System) (event : Event) : Prop :=
  ∀ new ∈ s.writes event, ∀ old ∈ s.committed, new.Settled old

instance (s : System) (event : Event) : Decidable (s.Settles event) := by
  unfold System.Settles
  infer_instance

section Windows

abbrev Ascending (events : List InterviewEvent) : Prop := events.Pairwise fun a b => a.seq < b.seq

theorem Ascending.filter_suffix {events : List InterviewEvent} (h : Ascending events)
    {p : InterviewEvent → Bool} (hp : ∀ a b, a.seq < b.seq → p a → p b) :
    events.filter p <:+ events := by
  induction events with
  | nil => exact List.suffix_rfl
  | cons ev events ih =>
    obtain ⟨hlater, hrest⟩ := List.pairwise_cons.mp h
    rcases Bool.eq_false_or_eq_true (p ev) with hpos | hneg
    · have hall : ∀ later ∈ events, p later := fun later hmem => hp ev later (hlater later hmem) hpos
      exact ⟨[], List.filter_eq_self.mpr (List.forall_mem_cons.mpr ⟨hpos, hall⟩)⟩
    · rw [List.filter_cons_of_neg (by simp [hneg])]
      exact (ih hrest).trans (List.suffix_cons _ _)

theorem Ascending.mem_suffix {events left : List InterviewEvent} (h : Ascending events)
    (hleft : left <:+ events) {first ev : InterviewEvent} (hfirst : first ∈ left)
    (hev : ev ∈ events) (hle : first.seq ≤ ev.seq) : ev ∈ left := by
  obtain ⟨gone, rfl⟩ := hleft
  rcases List.mem_append.mp hev with hgone | hmem
  · have hlt := (List.pairwise_append.mp h).2.2 ev hgone first hfirst
    omega
  · exact hmem

theorem Ascending.head_le {first : InterviewEvent} {events : List InterviewEvent}
    (h : Ascending events) (hfirst : events.head? = some first) {ev : InterviewEvent}
    (hev : ev ∈ events) : first.seq ≤ ev.seq := by
  obtain ⟨rest, rfl⟩ := List.head?_eq_some_iff.mp hfirst
  rcases List.mem_cons.mp hev with rfl | hmem
  · exact le_rfl
  · exact ((List.pairwise_cons.mp h).1 ev hmem).le

theorem Ascending.le_last {last : InterviewEvent} {events : List InterviewEvent}
    (h : Ascending events) (hlast : events.getLast? = some last) {ev : InterviewEvent}
    (hev : ev ∈ events) : ev.seq ≤ last.seq := by
  obtain ⟨before, rfl⟩ := List.getLast?_eq_some_iff.mp hlast
  rcases List.mem_append.mp hev with hmem | hsame
  · exact ((List.pairwise_append.mp h).2.2 ev hmem last List.mem_cons_self).le
  · rw [List.mem_singleton.mp hsame]

theorem Reading.asked_eq {read : Reading} (hsorted : Ascending read.appended)
    (hleft : read.buffer <:+ read.appended) {first : InterviewEvent} (hmem : first ∈ read.buffer)
    (hpast : read.cursor < first.seq)
    (hfirst : ∀ ev ∈ read.asked, first.seq ≤ ev.seq) :
    read.asked = read.appended.filter fun ev => first.seq ≤ ev.seq := by
  obtain ⟨gone, hsplit⟩ := hleft
  rw [← hsplit] at hsorted ⊢
  have hgone : gone.filter (fun ev => first.seq ≤ ev.seq) = [] := by
    refine List.filter_eq_nil_iff.mpr fun ev hev => ?_
    have hlt := (List.pairwise_append.mp hsorted).2.2 ev hev first hmem
    simpa using hlt
  rw [List.filter_append, hgone, List.nil_append]
  refine List.filter_congr fun ev hev => decide_eq_decide.mpr ⟨fun hcursor => ?_, fun hle => ?_⟩
  · exact hfirst ev (List.mem_filter.mpr ⟨hev, by simpa using hcursor⟩)
  · omega

structure Sent.ReadFrom (sent : Sent) (appended : List InterviewEvent) : Prop where
  events : sent.body.events = sent.read.asked.take INTERVIEW_SUBMIT_MAX_EVENTS
  first : ∃ first, sent.body.events.head? = some first ∧ sent.body.cursorFrom = first.seq
  last : ∃ last, sent.body.events.getLast? = some last ∧ sent.body.cursorTo = last.seq
  left : sent.read.buffer <:+ sent.read.appended
  earlier : sent.read.appended <+: appended

namespace Sent.ReadFrom

variable {sent : Sent} {appended : List InterviewEvent}

theorem mono {appended' : List InterviewEvent} (h : sent.ReadFrom appended)
    (happended : appended <+: appended') : sent.ReadFrom appended' :=
  { h with earlier := h.earlier.trans happended }

theorem asked_of_mem (h : sent.ReadFrom appended) {ev : InterviewEvent}
    (hev : ev ∈ sent.body.events) : ev ∈ sent.read.asked :=
  List.mem_of_mem_take (h.events ▸ hev)

theorem buffer_of_mem (h : sent.ReadFrom appended) {ev : InterviewEvent}
    (hev : ev ∈ sent.body.events) : ev ∈ sent.read.buffer ∧ sent.read.cursor < ev.seq := by
  obtain ⟨hbuffer, hpast⟩ := List.mem_filter.mp (h.asked_of_mem hev)
  exact ⟨hbuffer, by simpa using hpast⟩

variable (hsorted : Ascending appended)
include hsorted

theorem ascending (h : sent.ReadFrom appended) : Ascending sent.read.appended :=
  hsorted.sublist h.earlier.sublist

theorem ascending_asked (h : sent.ReadFrom appended) : Ascending sent.read.asked :=
  ((h.ascending hsorted).sublist h.left.sublist).filter _

theorem ascending_events (h : sent.ReadFrom appended) : Ascending sent.body.events := by
  rw [h.events]
  exact (h.ascending_asked hsorted).sublist (List.take_sublist _ _)

theorem from_le_asked (h : sent.ReadFrom appended) {ev : InterviewEvent}
    (hev : ev ∈ sent.read.asked) : sent.body.cursorFrom ≤ ev.seq := by
  obtain ⟨first, hfirst, hfrom⟩ := h.first
  have hhead : sent.read.asked.head? = some first := by
    rw [h.events] at hfirst
    rw [← hfirst, List.head?_take, if_neg (by decide)]
  rw [hfrom]
  exact (h.ascending_asked hsorted).head_le hhead hev

theorem from_le (h : sent.ReadFrom appended) {ev : InterviewEvent}
    (hev : ev ∈ sent.body.events) : sent.body.cursorFrom ≤ ev.seq :=
  h.from_le_asked hsorted (h.asked_of_mem hev)

theorem le_to (h : sent.ReadFrom appended) {ev : InterviewEvent}
    (hev : ev ∈ sent.body.events) : ev.seq ≤ sent.body.cursorTo := by
  obtain ⟨last, hlast, hto⟩ := h.last
  rw [hto]
  exact (h.ascending_events hsorted).le_last hlast hev

theorem asked_eq (h : sent.ReadFrom appended) :
    sent.read.asked = sent.read.appended.filter fun ev => sent.body.cursorFrom ≤ ev.seq := by
  obtain ⟨first, hfirst, hfrom⟩ := h.first
  obtain ⟨hbuffer, hpast⟩ := h.buffer_of_mem (List.mem_of_head? hfirst)
  rw [hfrom]
  refine Reading.asked_eq (h.ascending hsorted) h.left hbuffer hpast fun ev hev => ?_
  rw [← hfrom]
  exact h.from_le_asked hsorted hev

end Sent.ReadFrom

section Pairs

variable {old new : Sent} {appended : List InterviewEvent}

theorem window_eq_of_events (hold : old.ReadFrom appended) (hnew : new.ReadFrom appended)
    (h : new.body.events = old.body.events) : old.body.window = new.body.window := by
  obtain ⟨first, hfirst, hfrom⟩ := hold.first
  obtain ⟨last, hlast, hto⟩ := hold.last
  obtain ⟨first', hfirst', hfrom'⟩ := hnew.first
  obtain ⟨last', hlast', hto'⟩ := hnew.last
  rw [h, hfirst] at hfirst'
  rw [h, hlast] at hlast'
  unfold Submit.window
  rw [hfrom, hto, hfrom', hto', Option.some.inj hfirst', Option.some.inj hlast']

theorem apart_of_passed (hnew : new.ReadFrom appended)
    (h : (old.body.cursorTo : ℤ) ≤ new.read.cursor) : ¬ old.body.Overlaps new.body := by
  rintro ⟨-, hover⟩
  obtain ⟨first, hfirst, hfrom⟩ := hnew.first
  have hpast := (hnew.buffer_of_mem (List.mem_of_head? hfirst)).2
  omega

variable (hsorted : Ascending appended) (hold : old.ReadFrom appended)
  (hnew : new.ReadFrom appended)
include hsorted hnew

/-- Up to the cap, a window holds whatever is asked for before one of its events. -/
theorem apart_of_cut (h : new.CutBefore old) : ¬ old.body.Overlaps new.body := by
  rintro ⟨hover, -⟩
  obtain ⟨last, hlast, hto⟩ := hnew.last
  have hasked := hnew.ascending_asked hsorted
  have hmem : last ∈ new.read.asked.take INTERVIEW_SUBMIT_MAX_EVENTS :=
    hnew.events ▸ List.mem_of_getLast? hlast
  unfold Sent.CutBefore at h
  rw [← List.take_append_drop INTERVIEW_SUBMIT_MAX_EVENTS new.read.asked] at h hasked
  have hdropped : (new.read.asked.drop INTERVIEW_SUBMIT_MAX_EVENTS).filter
      (fun ev => ev.seq < old.body.cursorFrom) = [] := by
    refine List.filter_eq_nil_iff.mpr fun ev hev => ?_
    have hlt := (List.pairwise_append.mp hasked).2.2 last hmem ev hev
    simp only [decide_eq_true_eq]
    omega
  have hfewer : ((new.read.asked.take INTERVIEW_SUBMIT_MAX_EVENTS).filter
      fun ev => ev.seq < old.body.cursorFrom).length <
      (new.read.asked.take INTERVIEW_SUBMIT_MAX_EVENTS).length :=
    List.length_filter_lt_length_iff_exists.mpr
      ⟨last, hmem, by simp only [decide_eq_true_eq]; omega⟩
  have hcap := List.length_take_le INTERVIEW_SUBMIT_MAX_EVENTS new.read.asked
  rw [List.filter_append, hdropped, List.append_nil] at h
  omega

theorem cut_of_beyond {last : InterviewEvent} (hlast : last ∈ new.read.asked)
    (hbeyond : new.body.cursorTo < last.seq) (hbefore : new.body.cursorTo < old.body.cursorFrom) :
    new.CutBefore old := by
  have hnot : last ∉ new.read.asked.take INTERVIEW_SUBMIT_MAX_EVENTS := by
    intro hmem
    have hle := hnew.le_to hsorted (hnew.events ▸ hmem)
    omega
  have hfull : INTERVIEW_SUBMIT_MAX_EVENTS ≤ new.read.asked.length := by
    by_contra hshort
    rw [List.take_of_length_le (Nat.le_of_not_le hshort)] at hnot
    exact hnot hlast
  have hall : (new.read.asked.take INTERVIEW_SUBMIT_MAX_EVENTS).filter
      (fun ev => ev.seq < old.body.cursorFrom) =
      new.read.asked.take INTERVIEW_SUBMIT_MAX_EVENTS := by
    refine List.filter_eq_self.mpr fun ev hev => ?_
    have hle := hnew.le_to hsorted (hnew.events ▸ hev)
    simp only [decide_eq_true_eq]
    omega
  have hsub := ((List.take_sublist INTERVIEW_SUBMIT_MAX_EVENTS new.read.asked).filter
    fun ev => ev.seq < old.body.cursorFrom).length_le
  rw [hall, List.length_take, min_eq_left hfull] at hsub
  exact hsub

include hold

theorem apart_of_pruned (happended : old.read.appended <+: new.read.appended)
    (h : ∀ ev ∈ old.body.events, ev ∉ new.read.buffer) : ¬ old.body.Overlaps new.body := by
  rintro ⟨-, hover⟩
  obtain ⟨first, hfirst, hfrom⟩ := hnew.first
  obtain ⟨last, hlast, hto⟩ := hold.last
  have hmem : last ∈ old.body.events := List.mem_of_getLast? hlast
  have hbuffer : first ∈ new.read.buffer := (hnew.buffer_of_mem (List.mem_of_head? hfirst)).1
  refine h last hmem ((hnew.ascending hsorted).mem_suffix hnew.left hbuffer ?_ (by omega))
  exact happended.subset (hold.left.subset (hold.buffer_of_mem hmem).1)

theorem asked_append {later : List InterviewEvent}
    (hlater : old.read.appended ++ later = new.read.appended)
    (hsame : new.read.asked = new.read.appended.filter fun ev => old.body.cursorFrom ≤ ev.seq) :
    new.read.asked = old.read.asked ++ later := by
  -- What was appended between two reads from the same event on comes at the end.
  obtain ⟨first, hfirst, hfrom⟩ := hold.first
  have hmem := hold.left.subset (hold.buffer_of_mem (List.mem_of_head? hfirst)).1
  have hall : later.filter (fun ev => old.body.cursorFrom ≤ ev.seq) = later := by
    refine List.filter_eq_self.mpr fun ev hev => ?_
    have hascending := hnew.ascending hsorted
    rw [← hlater] at hascending
    have hlt := (List.pairwise_append.mp hascending).2.2 first hmem ev hev
    simp only [decide_eq_true_eq]
    omega
  rw [hsame, ← hlater, List.filter_append, hall, hold.asked_eq hsorted]

theorem events_eq_of_repeats (happended : old.read.appended <+: new.read.appended)
    (h : new.Repeats old) : new.body.events = old.body.events := by
  obtain ⟨hkept, hpast, hfirst, hfull⟩ := h
  obtain ⟨later, hlater⟩ := happended
  obtain ⟨first, hhead, hfrom⟩ := hold.first
  have hmem : first ∈ new.read.buffer := hkept (List.mem_of_head? hhead)
  rw [hfrom] at hpast
  have hsame := Reading.asked_eq (hnew.ascending hsorted) hnew.left hmem hpast
    (fun ev hev => hfrom ▸ hfirst ev hev)
  rw [← hfrom] at hsame
  rw [hnew.events, asked_append hsorted hold hnew hlater hsame, hold.events]
  rcases hfull with heq | hcap
  · have hnone : later = [] := List.self_eq_append_right.mp (heq ▸ hlater.symm)
    rw [hnone, List.append_nil]
  · rw [hold.events, List.length_take] at hcap
    exact List.take_append_of_le_length (by omega)

/-- The same window again was read from the same events on, and unless it is full, nothing was
appended in between. -/
theorem repeats_of_window_eq (happended : old.read.appended <+: new.read.appended)
    (h : old.body.window = new.body.window) : new.Repeats old := by
  obtain ⟨hfrom, hto⟩ := Prod.mk.inj h
  obtain ⟨first, hhead, hfirst⟩ := hnew.first
  obtain ⟨hbuffer, hpast⟩ := hnew.buffer_of_mem (List.mem_of_head? hhead)
  obtain ⟨later, hlater⟩ := happended
  have hsame := hnew.asked_eq hsorted
  rw [← hfrom] at hsame
  have hasked := asked_append hsorted hold hnew hlater hsame
  refine ⟨fun ev hev => ?_, by omega, fun ev hev => ?_, ?_⟩
  · have hle := hold.from_le hsorted hev
    refine (hnew.ascending hsorted).mem_suffix hnew.left hbuffer ?_ (by omega)
    exact hlater ▸ List.mem_append_left _ (hold.left.subset (hold.buffer_of_mem hev).1)
  · rw [hfrom]
    exact hnew.from_le_asked hsorted hev
  · by_contra hneither
    push Not at hneither
    obtain ⟨hmore, hshort⟩ := hneither
    rw [hold.events, List.length_take] at hshort
    have hroom : old.read.asked.length < INTERVIEW_SUBMIT_MAX_EVENTS := by omega
    cases later with
    | nil => exact hmore (by rw [← hlater, List.append_nil])
    | cons ev later =>
      -- There was room for the first event that came in between, so the window ends later.
      have hmem : ev ∈ new.body.events := by
        obtain ⟨room, hsize⟩ := Nat.exists_eq_succ_of_ne_zero (Nat.sub_ne_zero_of_lt hroom)
        rw [hnew.events, hasked, List.take_append, hsize]
        exact List.mem_append_right _ List.mem_cons_self
      have hle := hnew.le_to hsorted hmem
      obtain ⟨last, hlast, hlastTo⟩ := hold.last
      have hascending := hnew.ascending hsorted
      rw [← hlater] at hascending
      have hlt := (List.pairwise_append.mp hascending).2.2 last
        (hold.left.subset (hold.buffer_of_mem (List.mem_of_getLast? hlast)).1) ev
        List.mem_cons_self
      omega

/-- Of a submit that was read later, the window is apart from the other or the same just where it
follows it. -/
theorem follows_iff (happended : old.read.appended <+: new.read.appended) :
    new.Follows old ↔ (old.body.Overlaps new.body → old.body.window = new.body.window) := by
  constructor
  · rintro (hpassed | hpruned | hcut | hrepeats) hover
    · exact absurd hover (apart_of_passed hnew hpassed)
    · exact absurd hover (apart_of_pruned hsorted hold hnew happended hpruned)
    · exact absurd hover (apart_of_cut hsorted hnew hcut)
    · exact window_eq_of_events hold hnew
        (events_eq_of_repeats hsorted hold hnew happended hrepeats)
  · intro h
    by_contra hnot
    unfold Sent.Follows at hnot
    push Not at hnot
    obtain ⟨hpast, ⟨ev, hev, hleft⟩, hcut, hrepeats⟩ := hnot
    obtain ⟨last, hlast, hto⟩ := hold.last
    have hmem : last ∈ old.body.events := List.mem_of_getLast? hlast
    -- Some of the old window is left, so its end is, and the cursor is not past it.
    have hbuffer : last ∈ new.read.buffer := by
      refine (hnew.ascending hsorted).mem_suffix hnew.left hleft ?_ ?_
      · exact happended.subset (hold.left.subset (hold.buffer_of_mem hmem).1)
      · exact hto ▸ hold.le_to hsorted hev
    have hasked : last ∈ new.read.asked :=
      List.mem_filter.mpr ⟨hbuffer, by simp only [decide_eq_true_eq]; omega⟩
    refine hrepeats (repeats_of_window_eq hsorted hold hnew happended (h ⟨?_, ?_⟩))
    · by_contra hbefore
      have hle := hold.from_le hsorted hmem
      exact hcut (cut_of_beyond hsorted hnew hasked (by omega) (by omega))
    · rw [hto]
      exact hnew.from_le_asked hsorted hasked

end Pairs

theorem Submit.Overlaps.symm {a b : Submit} (h : a.Overlaps b) : b.Overlaps a := ⟨h.2, h.1⟩

theorem settled_iff {a b : Sent} {appended : List InterviewEvent} (hsorted : Ascending appended)
    (ha : a.ReadFrom appended) (hb : b.ReadFrom appended) :
    a.Settled b ↔ (a.body.Overlaps b.body → a.body.window = b.body.window) := by
  unfold Sent.Settled
  split_ifs with hle
  · exact follows_iff hsorted ha hb (List.prefix_of_prefix_length_le ha.earlier hb.earlier hle)
  · rw [follows_iff hsorted hb ha
      (List.prefix_of_prefix_length_le hb.earlier ha.earlier (Nat.le_of_not_le hle))]
    exact ⟨fun h hover => (h hover.symm).symm, fun h hover => (h hover.symm).symm⟩

end Windows

structure System.Traced (s : System) : Prop where
  increasing : Ascending s.appended
  left : s.buffer <:+ s.appended
  commands : ∀ command ∈ s.commands, command.sinceSeq = command.cursor + 1
  runs : ∀ run ∈ s.runs, run.toSent.ReadFrom s.appended
  committed : ∀ sent ∈ s.committed, sent.ReadFrom s.appended

section Steps

variable {s : System}

theorem readWindow_command (cursor : ℤ) (buffer : List InterviewEvent) :
    readWindow (sinceSeqOf (some (cursor + 1))) buffer =
      (buffer.filter fun ev => cursor < ev.seq).take INTERVIEW_SUBMIT_MAX_EVENTS := by
  unfold readWindow
  refine congrArg (List.take _) (List.filter_congr fun ev _ => decide_eq_decide.mpr ?_)
  unfold sinceSeqOf
  dsimp only
  split_ifs <;> omega

theorem submitOf_spec {events : List InterviewEvent} {body : Submit}
    (h : submitOf events = some body) :
    body.events = events ∧ (∃ first, events.head? = some first ∧ body.cursorFrom = first.seq) ∧
      ∃ last, events.getLast? = some last ∧ body.cursorTo = last.seq := by
  unfold submitOf at h
  split at h
  · rename_i first last hfirst hlast
    rw [← Option.some.inj h]
    exact ⟨rfl, ⟨first, hfirst, rfl⟩, last, hlast, rfl⟩
  · exact absurd h (by simp)

theorem System.Traced.reads (h : s.Traced) {command : ℕ} {sent : Sent}
    (hsent : s.reads command = some sent) : sent.ReadFrom s.appended := by
  unfold System.reads at hsent
  split at hsent
  · exact absurd hsent (by simp)
  · rename_i sinceSeq cursor hcommand
    obtain ⟨body, hbody, rfl⟩ := Option.map_eq_some_iff.mp hsent
    have hsince : sinceSeq = cursor + 1 := h.commands _ (List.mem_of_getElem? hcommand)
    rw [hsince, readWindow_command] at hbody
    obtain ⟨hevents, hfirst, hlast⟩ := submitOf_spec hbody
    exact ⟨hevents, hevents ▸ hfirst, hevents ▸ hlast, h.left, List.prefix_rfl⟩

theorem System.Traced.append (h : s.Traced) (ev : InterviewEvent) : (s.append ev).Traced := by
  unfold System.append
  split_ifs with hlater
  · have happended : s.appended <+: s.appended ++ [ev] := List.prefix_append _ _
    refine ⟨?_, ?_, h.commands, fun run hrun => (h.runs run hrun).mono happended,
      fun sent hsent => (h.committed sent hsent).mono happended⟩
    · refine List.pairwise_append.mpr ⟨h.increasing, List.pairwise_singleton _ _, ?_⟩
      intro old hold new hnew
      rw [List.mem_singleton.mp hnew]
      exact hlater old hold
    · obtain ⟨gone, hgone⟩ := h.left
      exact ⟨gone, by rw [← hgone, List.append_assoc]⟩
  · exact h

theorem System.Traced.tick (h : s.Traced) : s.tick.Traced := by
  refine { h with commands := fun command hcommand => ?_ }
  rcases List.mem_append.mp hcommand with hold | hnew
  · exact h.commands command hold
  · rw [List.mem_singleton.mp hnew]

theorem System.Traced.deliver (h : s.Traced) (sha1 : String → String) (nodeId : String)
    (command : ℕ) : (s.deliver sha1 nodeId command).Traced := by
  unfold System.deliver
  split
  · exact h
  · rename_i sent hsent
    refine { h with runs := fun run hrun => ?_ }
    rcases List.mem_append.mp hrun with hold | hnew
    · exact h.runs run hold
    · rw [List.mem_singleton.mp hnew]
      exact h.reads hsent

theorem System.committed_turn (run : ℕ) (reply : Reply) :
    (s.turn run reply).committed = s.committed ++ s.writes (.turn run reply) := by
  unfold System.turn System.writes
  dsimp only
  cases s.runs[run]? with
  | none => exact (List.append_nil _).symm
  | some r =>
    obtain ⟨sent, prog⟩ := r
    cases prog with
    | call c next => rfl
    | done result => exact (List.append_nil _).symm
    | raise status => exact (List.append_nil _).symm

theorem System.Traced.writes (h : s.Traced) {event : Event} {sent : Sent}
    (hsent : sent ∈ s.writes event) : sent.ReadFrom s.appended := by
  unfold System.writes at hsent
  split at hsent
  · split at hsent
    · rename_i hrun
      split_ifs at hsent
      · rw [List.mem_singleton.mp hsent]
        exact h.runs _ (List.mem_of_getElem? hrun)
      · exact absurd hsent List.not_mem_nil
    · exact absurd hsent List.not_mem_nil
  · exact absurd hsent List.not_mem_nil

theorem System.Traced.turn (h : s.Traced) (run : ℕ) (reply : Reply) :
    (s.turn run reply).Traced := by
  have hcommitted : ∀ sent ∈ (s.turn run reply).committed, sent.ReadFrom s.appended := by
    intro sent hsent
    rw [System.committed_turn] at hsent
    exact (List.mem_append.mp hsent).elim (h.committed sent) h.writes
  revert hcommitted
  unfold System.turn
  split
  · exact fun _ => h
  · rename_i sent prog hrun
    split
    · refine fun hcommitted => { h with runs := fun r hr => ?_, committed := hcommitted }
      rcases List.mem_or_eq_of_mem_set hr with hold | hnew
      · exact h.runs r hold
      · have hread := h.runs _ (List.mem_of_getElem? hrun)
        rw [hnew]
        exact hread
    · exact fun _ => h

theorem System.Traced.cancel (h : s.Traced) (run : ℕ) : (s.cancel run).Traced := by
  unfold System.cancel
  split
  · exact h
  · rename_i sent prog hrun
    refine { h with runs := fun r hr => ?_ }
    rcases List.mem_or_eq_of_mem_set hr with hold | hnew
    · exact h.runs r hold
    · have hread := h.runs _ (List.mem_of_getElem? hrun)
      rw [hnew]
      exact hread

theorem System.Traced.prune (h : s.Traced) (watermark : ℤ) : (s.prune watermark).Traced := by
  refine { h with left := List.IsSuffix.trans ?_ h.left }
  have hbuffer : Ascending s.buffer := h.increasing.sublist h.left.sublist
  refine hbuffer.filter_suffix fun a b hlt hkept => ?_
  simp only [decide_eq_true_eq] at hkept ⊢
  omega

theorem System.Traced.respond (h : s.Traced) (run : ℕ) : (s.respond run).Traced := by
  unfold System.respond
  split
  · split
    · exact h.prune _
    · exact h
  · exact h

theorem System.Traced.step (h : s.Traced) (sha1 : String → String) (nodeId : String)
    (event : Event) : (s.step sha1 nodeId event).Traced := by
  cases event with
  | append ev => exact h.append ev
  | tick => exact h.tick
  | deliver command => exact h.deliver sha1 nodeId command
  | turn run reply => exact h.turn run reply
  | cancel run => exact h.cancel run
  | respond run => exact h.respond run

theorem System.Traced.run (h : s.Traced) (sha1 : String → String) (nodeId : String)
    (events : List Event) : (run (fun s e => s.step sha1 nodeId e) s events).Traced := by
  induction events generalizing s with
  | nil => exact h
  | cons event events ih => exact ih (h.step sha1 nodeId event)

/-- The windows with rows are apart, or the same. -/
def System.Apart (s : System) : Prop :=
  ∀ a ∈ s.committed, ∀ b ∈ s.committed, a.body.Overlaps b.body → a.body.window = b.body.window

theorem System.Traced.reportedOnce_iff (h : s.Traced) : s.ReportedOnce ↔ s.Apart := by
  constructor
  · intro honce a ha b hb hover
    obtain ⟨first, hfirst, hfrom⟩ := (h.committed a ha).first
    obtain ⟨first', hfirst', hfrom'⟩ := (h.committed b hb).first
    have happended : ∀ sent ∈ s.committed, sent.body.events ⊆ s.appended := fun sent hsent ev hev =>
      (h.committed sent hsent).earlier.subset
        ((h.committed sent hsent).left.subset ((h.committed sent hsent).buffer_of_mem hev).1)
    have hmem := List.mem_of_head? hfirst
    have hmem' := List.mem_of_head? hfirst'
    have hto := (h.committed a ha).le_to h.increasing hmem
    have hto' := (h.committed b hb).le_to h.increasing hmem'
    obtain ⟨hleft, hright⟩ := hover
    rcases le_total a.body.cursorFrom b.body.cursorFrom with hle | hle
    · exact honce first' (happended b hb hmem') a ha b hb ⟨by omega, by omega⟩ ⟨by omega, hto'⟩
    · exact honce first (happended a ha hmem) a ha b hb ⟨by omega, hto⟩ ⟨by omega, by omega⟩
  · intro hapart ev _ a ha b hb hcovers hcovers'
    exact hapart a ha b hb ⟨hcovers.1.trans hcovers'.2, hcovers'.1.trans hcovers.2⟩

theorem System.committed_step (sha1 : String → String) (nodeId : String) (event : Event) :
    (s.step sha1 nodeId event).committed = s.committed ++ s.writes event := by
  cases event with
  | append ev =>
    refine Eq.trans ?_ (List.append_nil _).symm
    unfold System.step System.append
    dsimp only
    split_ifs <;> rfl
  | tick => exact (List.append_nil _).symm
  | deliver command =>
    refine Eq.trans ?_ (List.append_nil _).symm
    unfold System.step System.deliver
    dsimp only
    split <;> rfl
  | turn run reply => exact System.committed_turn run reply
  | cancel run =>
    refine Eq.trans ?_ (List.append_nil _).symm
    unfold System.step System.cancel
    dsimp only
    split <;> rfl
  | respond run =>
    refine Eq.trans ?_ (List.append_nil _).symm
    unfold System.step System.respond
    dsimp only
    split
    · split <;> rfl
    · rfl

theorem System.writes_subsingleton {event : Event} {a b : Sent} (ha : a ∈ s.writes event)
    (hb : b ∈ s.writes event) : a = b := by
  unfold System.writes at ha hb
  grind

/-- The windows stay apart just where the step is settled. -/
theorem System.Apart.step_iff (h : s.Apart) (htraced : s.Traced) (sha1 : String → String)
    (nodeId : String) (event : Event) : (s.step sha1 nodeId event).Apart ↔ s.Settles event := by
  unfold System.Apart
  rw [System.committed_step]
  constructor
  · intro hapart new hnew old hold
    rw [settled_iff htraced.increasing (htraced.writes hnew) (htraced.committed old hold)]
    exact hapart new (List.mem_append_right _ hnew) old (List.mem_append_left _ hold)
  · intro hsettles a ha b hb hover
    have hsettled : ∀ new ∈ s.writes event, ∀ old ∈ s.committed,
        new.body.Overlaps old.body → new.body.window = old.body.window := fun new hnew old hold =>
      (settled_iff htraced.increasing (htraced.writes hnew) (htraced.committed old hold)).mp
        (hsettles new hnew old hold)
    rcases List.mem_append.mp ha with haold | hanew
    · rcases List.mem_append.mp hb with hbold | hbnew
      · exact h a haold b hbold hover
      · exact (hsettled b hbnew a haold hover.symm).symm
    · rcases List.mem_append.mp hb with hbold | hbnew
      · exact hsettled a hanew b hbold hover
      · rw [System.writes_subsingleton hanew hbnew]

end Steps

theorem traced_start : System.start.Traced :=
  ⟨List.Pairwise.nil, List.suffix_rfl, by simp [System.start], by simp [System.start],
    by simp [System.start]⟩

/-- Every event is covered by at most one committed window throughout a run just where each commit
is settled with the ones before. -/
theorem reportedOnce_iff_settles (sha1 : String → String) (nodeId : String) (events : List Event) :
    (∀ past, past <+: events →
      (run (fun s e => s.step sha1 nodeId e) System.start past).ReportedOnce) ↔
      Along (fun s e => s.step sha1 nodeId e) System.Settles System.start events := by
  have htraced := fun past => traced_start.run sha1 nodeId past
  have hkept : ∀ (s : System), ∀ event ∈ events, s.Traced ∧ s.Apart →
      ((s.step sha1 nodeId event).Traced ∧ (s.step sha1 nodeId event).Apart ↔
        s.Settles event) := by
    rintro s event - ⟨htraced, hapart⟩
    rw [hapart.step_iff htraced]
    exact and_iff_right (htraced.step sha1 nodeId event)
  have hstart : System.start.Traced ∧ System.start.Apart :=
    ⟨traced_start, fun a ha => absurd ha List.not_mem_nil⟩
  rw [← Along.iff_kept (P := fun s : System => s.Traced ∧ s.Apart) hkept hstart,
    Along.iff_prefix (P := fun s : System => s.Traced ∧ s.Apart) hstart]
  refine forall₂_congr fun past _ => ?_
  rw [(htraced past).reportedOnce_iff]
  exact (and_iff_right (htraced past)).symm

def Reply.good : Reply := ⟨true, true, ["item"], [.created], true⟩

def eventWithSeq (seq : ℕ) : InterviewEvent := newEvent seq [] default

def crashedTry : List Event :=
  [.append (eventWithSeq 0), .tick, .deliver 0, .turn 0 .good, .turn 0 .good, .turn 0 .good,
    .cancel 0]

def nextTry : List Event :=
  [.tick, .deliver 1, .turn 1 .good, .turn 1 .good, .turn 1 .good]

example : Along (fun s e => s.step id "node" e) System.Settles System.start
    (crashedTry ++ nextTry) := by decide

/-- With an event in between, the next try has another window, and both report the first event. -/
theorem not_reportedOnce_grown :
    ¬ (run (fun s e => s.step id "node" e) System.start
      (crashedTry ++ .append (eventWithSeq 1) :: nextTry)).ReportedOnce := by
  decide

end Memclaw.Interview
