import Memclaw.Interview.BufferRuns
import Memclaw.Interview.Windows

/-! What the plugin prunes was interviewed. A cursor that is stored, queued or returned has
behind it only events of windows that were used up, whatever the order of the steps. -/

namespace Memclaw.Interview

open Memclaw.Lib Memclaw.Lib.Interleave Memclaw.Lib.Interleave.Prog Memclaw.Write

def vouched (body : Submit) (c : Call) (a : c.Answer) : List ℤ :=
  match c, a with
  | .getDocument, some (some v) => [v]
  | c, a => if consumes c a then [(body.cursorTo : ℤ)] else []

def WritesKnown (known : List ℤ) (c : Call) : Prop :=
  match c with
  | .upsertDocument lastSeq => lastSeq ∈ known
  | _ => True

abbrev Careful (body : Submit) {R : Type} (Post : List ℤ → R → Prop) (known : List ℤ)
    (p : Service R) : Prop := Informed (vouched body) WritesKnown Post known p

section Careful

variable {body : Submit} {R : Type} {Post : List ℤ → R → Prop} {known : List ℤ}

theorem Careful.readWatermarkSeq {f : ℤ → Service R}
    (h : ∀ known', known ⊆ known' → ∀ v, v = -1 ∨ v ∈ known' → Careful body Post known' (f v)) :
    Careful body Post known (readWatermarkSeq >>= f) := by
  refine ⟨trivial, fun a => ?_⟩
  rcases a with - | - | v
  · trivial
  · exact h _ (List.subset_append_left _ _) _ (.inl rfl)
  · exact h _ (List.subset_append_left _ _) _ (.inr (by simp [vouched]))

theorem careful_finalWatermark {cursorTo : ℕ} (hto : (cursorTo : ℤ) ∈ known) :
    Careful body (fun known v => v ∈ known) known (finalWatermark cursorTo) := by
  refine ⟨trivial, fun a => ?_⟩
  have hold := List.subset_append_left known (vouched body .getDocument a)
  rcases a with - | - | v
  · exact hold hto
  · exact hold hto
  · show (if 0 ≤ v then v else (cursorTo : ℤ)) ∈ _
    split_ifs
    · simp [vouched]
    · exact hold hto

theorem careful_advancePasses {cursorTo : ℕ} (attempts : ℕ) (hto : (cursorTo : ℤ) ∈ known) :
    Careful body (fun known v => v ∈ known) known (advancePasses cursorTo attempts) := by
  induction attempts generalizing known with
  | zero => exact careful_finalWatermark hto
  | succ attempts ih =>
    refine Careful.readWatermarkSeq fun known₁ h₁ existingSeq hexisting => ?_
    split_ifs with hbehind
    · rcases hexisting with rfl | hmem
      · omega
      · exact hmem
    · refine ⟨h₁ hto, fun a => ?_⟩
      cases a with
      | none => trivial
      | some _ =>
        refine Careful.readWatermarkSeq fun known₂ h₂ stored hstored => ?_
        have hto₂ := h₂ (List.subset_append_left _ _ (h₁ hto))
        split_ifs with hlanded
        · rcases hstored with rfl | hmem
          · omega
          · exact hmem
        · exact ih hto₂

def Returns (known : List ℤ) (result : InterviewResult) : Prop :=
  ∀ v, result.watermark = some v → v ∈ known

theorem careful_advanceThen {cursorTo : ℕ} (hto : (cursorTo : ℤ) ∈ known)
    {f : ℤ → InterviewResult} (hf : ∀ v, (f v).watermark = some v) :
    Careful body Returns known (advanceWatermark cursorTo >>= fun v => pure (f v)) := by
  refine Informed.bind ((careful_advancePasses _ hto).mono fun known v hv => ?_)
  intro w hw
  rw [hf v] at hw
  rw [← Option.some.inj hw]
  exact hv

variable (sha1 : String → String) (nodeId : String)

theorem careful_runInterview : Careful body Returns known (runInterview sha1 nodeId body) := by
  refine ⟨trivial, fun a => ?_⟩
  rcases a with - | items
  · trivial
  show Careful body Returns _ (if items = [] then _ else _)
  split_ifs with hnone
  · exact careful_advanceThen (by simp [vouched, consumes, hnone]) fun _ => rfl
  · refine ⟨trivial, fun a => ?_⟩
    rcases a with - | statuses
    · trivial
    show Careful body Returns _ (if totalFailure statuses then _ else _)
    rcases Bool.eq_false_or_eq_true (totalFailure statuses) with htotal | htotal
    · rw [if_pos htotal]
      exact fun v hv => absurd hv (by simp)
    · rw [if_neg (by simp [htotal])]
      exact careful_advanceThen (by simp [vouched, consumes, htotal]) fun _ => rfl

theorem careful_submitInterview (body : Submit) :
    Careful body Returns [] (submitInterview sha1 nodeId body) := by
  unfold submitInterview
  split_ifs
  · refine ⟨trivial, fun a => ?_⟩
    rcases a with - | - | -
    · trivial
    · trivial
    · show Careful body Returns _ (runInterview sha1 nodeId body >>= _)
      refine Informed.bind ((careful_runInterview sha1 nodeId).mono fun known result h => ?_)
      split_ifs
      · trivial
      · exact h
  · trivial

end Careful

def System.Consumed (s : System) (ev : InterviewEvent) : Prop :=
  ∃ body ∈ s.consumed, ev ∈ body.events

/-- No event from here on is behind the cursor, and those that are were used up. -/
structure System.Passed (s : System) (v : ℤ) : Prop where
  reached : v < 0 ∨ ∃ ev ∈ s.appended, v ≤ ev.seq
  consumed : ∀ ev ∈ s.appended, ev.seq ≤ v → s.Consumed ev

/-- A run carries what is not used up yet, as far as its window goes, and every cursor that it
goes by is passed. -/
structure System.Covers (s : System) (run : Run) : Prop where
  reached : ∃ ev ∈ s.appended, run.body.cursorTo ≤ ev.seq
  carried : ∀ ev ∈ s.appended, ev.seq ≤ run.body.cursorTo → ev ∈ run.body.events ∨ s.Consumed ev
  careful : ∃ cursors, Careful run.body Returns cursors run.prog ∧ ∀ v ∈ cursors, s.Passed v

structure System.Sound (s : System) : Prop where
  increasing : s.buffer.Pairwise fun a b => a.seq < b.seq
  buffered : s.buffer ⊆ s.appended
  kept : ∀ ev ∈ s.appended, ev ∈ s.buffer ∨ s.Consumed ev
  pruned : ∀ ev ∈ s.pruned, s.Consumed ev
  watermark : ∀ v, s.watermark = some v → s.Passed v
  commands : ∀ command ∈ s.commands, s.Passed (command.sinceSeq - 1)
  runs : ∀ run ∈ s.runs, s.Covers run

structure System.Extends (s s' : System) : Prop where
  consumed : s.consumed ⊆ s'.consumed
  appended : s.appended ⊆ s'.appended
  later : ∀ ev ∈ s'.appended, ev ∈ s.appended ∨ ∀ old ∈ s.appended, old.seq < ev.seq

section Extends

variable {s s' : System}

theorem System.Extends.of_eq (happended : s'.appended = s.appended)
    (hconsumed : s.consumed ⊆ s'.consumed) : s.Extends s' where
  consumed := hconsumed
  appended := happended ▸ List.Subset.refl _
  later _ hev := .inl (happended ▸ hev)

theorem System.Consumed.mono {ev : InterviewEvent} (h : s.Consumed ev) (hs : s.Extends s') :
    s'.Consumed ev := by
  obtain ⟨body, hbody, hev⟩ := h
  exact ⟨body, hs.consumed hbody, hev⟩

theorem System.Passed.mono {v : ℤ} (h : s.Passed v) (hs : s.Extends s') : s'.Passed v where
  reached := by
    rcases h.reached with hneg | ⟨ev, hev, hle⟩
    · exact .inl hneg
    · exact .inr ⟨ev, hs.appended hev, hle⟩
  consumed := by
    intro ev hev hle
    rcases hs.later ev hev with hold | hnew
    · exact (h.consumed ev hold hle).mono hs
    · rcases h.reached with hneg | ⟨old, hmem, hbound⟩
      · omega
      · have hlt := hnew old hmem
        omega

theorem System.Covers.mono {run : Run} (h : s.Covers run) (hs : s.Extends s') : s'.Covers run where
  reached := by
    obtain ⟨ev, hev, hle⟩ := h.reached
    exact ⟨ev, hs.appended hev, hle⟩
  carried := by
    intro ev hev hle
    rcases hs.later ev hev with hold | hnew
    · exact (h.carried ev hold hle).imp_right fun hconsumed => hconsumed.mono hs
    · obtain ⟨old, hmem, hbound⟩ := h.reached
      have hlt := hnew old hmem
      omega
  careful := by
    obtain ⟨cursors, hcareful, hpassed⟩ := h.careful
    exact ⟨cursors, hcareful, fun v hv => (hpassed v hv).mono hs⟩

end Extends

theorem mem_take_of_le {events : List InterviewEvent} {n : ℕ} {last ev : InterviewEvent}
    (h : events.Pairwise fun a b => a.seq < b.seq) (hlast : last ∈ events.take n)
    (hev : ev ∈ events) (hle : ev.seq ≤ last.seq) : ev ∈ events.take n := by
  rw [← List.take_append_drop n events] at h hev
  rcases List.mem_append.mp hev with htaken | hdropped
  · exact htaken
  · have hlt := (List.pairwise_append.mp h).2.2 last hlast ev hdropped
    omega

theorem sinceSeqOf_le {sinceSeq : ℤ} {ev : InterviewEvent}
    (h : ¬ sinceSeqOf (some sinceSeq) ≤ ev.seq) : (ev.seq : ℤ) ≤ sinceSeq - 1 := by
  unfold sinceSeqOf at h
  dsimp only at h
  split_ifs at h <;> omega

/-- A window that starts at a cursor carries whatever the cursor has not behind it. -/
theorem System.Sound.covers_window {s : System} (h : s.Sound) {sinceSeq : ℤ}
    (hpassed : s.Passed (sinceSeq - 1)) {sent : Sent}
    (hbody : submitOf (readWindow (sinceSeqOf (some sinceSeq)) s.buffer) = some sent.body)
    {prog : Service InterviewResult} (hprog : Careful sent.body Returns [] prog) :
    s.Covers ⟨sent, prog⟩ := by
  obtain ⟨hevents, -, last, hend, hto⟩ := submitOf_spec hbody
  have hlast := List.mem_of_getLast? hend
  have hmem : last ∈ s.buffer := (List.mem_filter.mp (List.mem_of_mem_take hlast)).1
  refine ⟨⟨last, h.buffered hmem, hto.le⟩, fun ev hev hle => ?_, [], hprog, by simp⟩
  rcases h.kept ev hev with hbuffer | hconsumed
  · by_cases hsince : sinceSeqOf (some sinceSeq) ≤ ev.seq
    · left
      show ev ∈ sent.body.events
      rw [hevents]
      have hle : ev.seq ≤ last.seq := hle.trans hto.le
      exact mem_take_of_le (h.increasing.filter _) hlast
        (List.mem_filter.mpr ⟨hbuffer, by simpa using hsince⟩) hle
    · exact .inr (hpassed.consumed ev hev (sinceSeqOf_le hsince))
  · exact .inr hconsumed

section Steps

variable {s : System}

theorem System.Sound.append (h : s.Sound) (ev : InterviewEvent) : (s.append ev).Sound := by
  unfold System.append
  split_ifs with hnew
  · have hs : s.Extends { s with buffer := s.buffer ++ [ev], appended := s.appended ++ [ev] } := by
      refine ⟨List.Subset.refl _, List.subset_append_left _ _, fun e he => ?_⟩
      rcases List.mem_append.mp he with hold | hlast
      · exact .inl hold
      · rw [List.mem_singleton.mp hlast]
        exact .inr hnew
    refine ⟨?_, ?_, fun e he => ?_, fun e he => (h.pruned e he).mono hs,
      fun v hv => (h.watermark v hv).mono hs, fun v hv => (h.commands v hv).mono hs,
      fun run hrun => (h.runs run hrun).mono hs⟩
    · rw [List.pairwise_append]
      refine ⟨h.increasing, List.pairwise_singleton _ _, fun a ha b hb => ?_⟩
      rw [List.mem_singleton.mp hb]
      exact hnew a (h.buffered ha)
    · exact List.append_subset.mpr ⟨fun e he => List.mem_append_left _ (h.buffered he),
        List.subset_append_right _ _⟩
    · rcases List.mem_append.mp he with hold | hlast
      · rcases h.kept e hold with hbuffer | hconsumed
        · exact .inl (List.mem_append_left _ hbuffer)
        · exact .inr (hconsumed.mono hs)
      · exact .inl (List.mem_append_right _ hlast)
  · exact h

theorem System.Sound.tick (h : s.Sound) : s.tick.Sound := by
  have hs : s.Extends s.tick := .of_eq rfl (List.Subset.refl _)
  refine ⟨h.increasing, h.buffered, h.kept, h.pruned, fun v hv => (h.watermark v hv).mono hs,
    fun command hcommand => ?_, fun run hrun => (h.runs run hrun).mono hs⟩
  rcases List.mem_append.mp hcommand with hold | hnew
  · exact (h.commands command hold).mono hs
  · have hcursor : command.sinceSeq - 1 = s.watermark.getD (-1) := by
      rw [List.mem_singleton.mp hnew]
      dsimp only
      omega
    rw [hcursor]
    cases hstored : s.watermark with
    | none => exact ⟨.inl (by decide), fun ev _ hle => absurd hle (by rw [Option.getD_none]; omega)⟩
    | some v => exact (h.watermark v hstored).mono hs

theorem System.Sound.of_runs {s' : System} (h : s.Sound) (hs : s.Extends s')
    (hbuffer : s'.buffer = s.buffer) (happended : s'.appended = s.appended)
    (hpruned : s'.pruned = s.pruned) (hcommands : s'.commands = s.commands)
    (hwatermark : ∀ v, s'.watermark = some v → s.Passed v)
    (hruns : ∀ run ∈ s'.runs, run ∈ s.runs ∨ s'.Covers run) : s'.Sound where
  increasing := hbuffer ▸ h.increasing
  buffered := by
    -- A step on the runs alone: each of them is an old one, or is covered anew.
    rw [hbuffer, happended]
    exact h.buffered
  kept := by
    rw [hbuffer, happended]
    exact fun ev hev => (h.kept ev hev).imp_right fun hconsumed => hconsumed.mono hs
  pruned := by
    rw [hpruned]
    exact fun ev hev => (h.pruned ev hev).mono hs
  watermark v hv := (hwatermark v hv).mono hs
  commands := by
    rw [hcommands]
    exact fun v hv => (h.commands v hv).mono hs
  runs run hrun := by
    rcases hruns run hrun with hold | hnew
    · exact (h.runs run hold).mono hs
    · exact hnew

theorem System.Sound.deliver (h : s.Sound) (sha1 : String → String) (nodeId : String)
    (command : ℕ) : (s.deliver sha1 nodeId command).Sound := by
  unfold System.deliver
  split
  · exact h
  · rename_i sent hsent
    have hs : s.Extends { s with
        runs := s.runs ++ [⟨sent, submitInterview sha1 nodeId sent.body⟩] } :=
      .of_eq rfl (List.Subset.refl _)
    refine h.of_runs hs rfl rfl rfl rfl h.watermark fun run hrun => ?_
    rcases List.mem_append.mp hrun with hold | hnew
    · exact .inl hold
    · rw [List.mem_singleton.mp hnew]
      unfold System.reads at hsent
      split at hsent
      · exact absurd hsent (by simp)
      · rename_i sinceSeq cursor hcommand
        have hpassed := h.commands _ (List.mem_of_getElem? hcommand)
        obtain ⟨body, hbody, rfl⟩ := Option.map_eq_some_iff.mp hsent
        exact .inr ((h.covers_window hpassed hbody
          (careful_submitInterview sha1 nodeId body)).mono hs)

theorem System.Sound.cancel (h : s.Sound) (run : ℕ) : (s.cancel run).Sound := by
  unfold System.cancel
  split
  · exact h
  · rename_i sent prog hrun
    have hs : s.Extends { s with runs := s.runs.set run ⟨sent, .raise 504⟩ } :=
      .of_eq rfl (List.Subset.refl _)
    refine h.of_runs hs rfl rfl rfl rfl h.watermark fun r hr => ?_
    rcases List.mem_or_eq_of_mem_set hr with hold | rfl
    · exact .inl hold
    · have hcovers := h.runs _ (List.mem_of_getElem? hrun)
      exact .inr ⟨hcovers.reached, hcovers.carried, [], trivial, by simp⟩

theorem passed_serve (h : s.Sound) {reply : Reply} {c : Call} {cursors : List ℤ}
    (hwrites : WritesKnown cursors c) (hcursors : ∀ v ∈ cursors, s.Passed v) (v : ℤ)
    (hv : (reply.serve c s.watermark).2 = some v) : s.Passed v := by
  cases c with
  | upsertDocument lastSeq =>
    have hlast : s.Passed lastSeq := hcursors lastSeq hwrites
    simp only [Reply.serve] at hv
    split_ifs at hv
    · rw [← Option.some.inj hv]; exact hlast
    · rw [← Option.some.inj hv]; exact hlast
    · exact h.watermark v hv
  | settings => exact h.watermark v hv
  | interview _ => exact h.watermark v hv
  | createMemoriesBulk _ _ => exact h.watermark v hv
  | getDocument => exact h.watermark v hv

theorem vouched_serve {reply : Reply} {c : Call} {body : Submit} {v : ℤ}
    (hv : v ∈ vouched body c (reply.serve c s.watermark).1) :
    s.watermark = some v ∨
      v = body.cursorTo ∧ consumes c (reply.serve c s.watermark).1 = true := by
  -- What an answer vouches for is the stored cursor, or the end of a window that is used up.
  unfold vouched at hv
  split at hv
  · rename_i stored hanswer
    left
    simp only [Reply.serve] at hanswer
    split_ifs at hanswer
    rw [Option.some.inj hanswer, List.mem_singleton.mp hv]
  · split_ifs at hv with hconsumes
    · exact .inr ⟨List.mem_singleton.mp hv, hconsumes⟩
    · exact absurd hv List.not_mem_nil

/-- Once its window is used up, a run may go by the end of it. -/
theorem System.Sound.covers_next (h : s.Sound) {sent : Sent} {reply : Reply} {c : Call}
    {next : c.Answer → Service InterviewResult} (hcovers : s.Covers ⟨sent, .call c next⟩)
    {s' : System} (hs : s.Extends s')
    (hused : consumes c (reply.serve c s.watermark).1 = true → sent.body ∈ s'.consumed) :
    s'.Covers ⟨sent, next (reply.serve c s.watermark).1⟩ := by
  obtain ⟨cursors, ⟨-, hnext⟩, hcursors⟩ := hcovers.careful
  have hcovers' := hcovers.mono hs
  refine ⟨hcovers'.reached, hcovers'.carried, _, hnext _, fun v hv => ?_⟩
  rcases List.mem_append.mp hv with hold | hnew
  · exact (hcursors v hold).mono hs
  · rcases vouched_serve hnew with hstored | ⟨rfl, hconsumes⟩
    · exact (h.watermark v hstored).mono hs
    · obtain ⟨ev, hev, hle⟩ := hcovers'.reached
      refine ⟨.inr ⟨ev, hev, by exact_mod_cast hle⟩, fun e he hbehind => ?_⟩
      rcases hcovers'.carried e he (by exact_mod_cast hbehind) with hcarried | hconsumed
      · exact ⟨sent.body, hused hconsumes, hcarried⟩
      · exact hconsumed

theorem System.Sound.turn (h : s.Sound) (run : ℕ) (reply : Reply) : (s.turn run reply).Sound := by
  unfold System.turn
  split
  · exact h
  · rename_i sent prog hrun
    split
    · rename_i c next
      have hcovers := h.runs _ (List.mem_of_getElem? hrun)
      obtain ⟨cursors, ⟨hwrites, -⟩, hcursors⟩ := hcovers.careful
      refine h.of_runs (.of_eq rfl (List.subset_append_left _ _)) rfl rfl rfl rfl
        (passed_serve h hwrites hcursors) fun r hr => ?_
      rcases List.mem_or_eq_of_mem_set hr with hold | rfl
      · exact .inl hold
      · refine .inr (h.covers_next hcovers (.of_eq rfl (List.subset_append_left _ _)) fun hused => ?_)
        rw [if_pos hused]
        exact List.mem_append_right _ List.mem_cons_self
    · exact h

theorem System.Sound.prune (h : s.Sound) {v : ℤ} (hv : s.Passed v) : (s.prune v).Sound := by
  have hs : s.Extends (s.prune v) := .of_eq rfl (List.Subset.refl _)
  refine ⟨h.increasing.filter _, fun e he => h.buffered (List.mem_filter.mp he).1, fun e he => ?_,
    fun e he => ?_, fun v hv => (h.watermark v hv).mono hs, fun v hv => (h.commands v hv).mono hs,
    fun run hrun => (h.runs run hrun).mono hs⟩
  · rcases h.kept e he with hbuffer | hconsumed
    · by_cases hle : (e.seq : ℤ) ≤ v
      · exact .inr ((hv.consumed e he hle).mono hs)
      · exact .inl (List.mem_filter.mpr ⟨hbuffer, by simpa using hle⟩)
    · exact .inr (hconsumed.mono hs)
  · rcases List.mem_append.mp he with hold | hnew
    · exact (h.pruned e hold).mono hs
    · obtain ⟨hbuffer, hle⟩ := List.mem_filter.mp hnew
      exact (hv.consumed e (h.buffered hbuffer) (by simpa using hle)).mono hs

theorem System.Sound.respond (h : s.Sound) (run : ℕ) : (s.respond run).Sound := by
  unfold System.respond
  split
  · rename_i sent result hrun
    split
    · rename_i v hwatermark
      obtain ⟨cursors, hreturns, hcursors⟩ := (h.runs _ (List.mem_of_getElem? hrun)).careful
      exact h.prune (hcursors v (hreturns v hwatermark))
    · exact h
  · exact h

end Steps

theorem System.Sound.step {s : System} (h : s.Sound) (sha1 : String → String) (nodeId : String)
    (event : Event) : (s.step sha1 nodeId event).Sound := by
  cases event with
  | append ev => exact h.append ev
  | tick => exact h.tick
  | deliver command => exact h.deliver sha1 nodeId command
  | turn run reply => exact h.turn run reply
  | cancel run => exact h.cancel run
  | respond run => exact h.respond run

theorem sound_systemStart : System.start.Sound :=
  ⟨List.Pairwise.nil, List.Subset.refl _, by simp [System.start], by simp [System.start],
    by simp [System.start], by simp [System.start], by simp [System.start]⟩

theorem System.Sound.run {s : System} (h : s.Sound) (sha1 : String → String) (nodeId : String)
    (events : List Event) : (run (fun s e => s.step sha1 nodeId e) s events).Sound := by
  induction events generalizing s with
  | nil => exact h
  | cons event events ih => exact ih (h.step sha1 nodeId event)

structure Hosted where
  node : Node
  server : System

def Hosted.system (h : Hosted) : System := { h.server with buffer := h.node.disk.events }

/-- After `restart` the process knows the buffer from its files alone. -/
inductive Move
  | append (ts : Utf16) (input : InterviewEventInput)
  | restart
  | tick
  | deliver (command : ℕ)
  | turn (run : ℕ) (reply : Reply)
  | cancel (run : ℕ)
  | respond (run : ℕ)

section Moves

variable (sha1 : String → String) (nodeId : String)

def Hosted.append (h : Hosted) (ts : Utf16) (input : InterviewEventInput) : Hosted where
  node := h.node.append ts input
  server := { h.server with
    appended := h.server.appended ++ [addedEvent ts input h.node.seeded] }

def Hosted.deliver (h : Hosted) (command : ℕ) : Hosted :=
  match h.server.commands[command]? with
  | none => h
  | some ⟨sinceSeq, cursor⟩ =>
    let since := sinceSeqOf (some sinceSeq)
    let read := readInterviewEvents since INTERVIEW_SUBMIT_MAX_EVENTS h.node.state
    let node := h.node.read since INTERVIEW_SUBMIT_MAX_EVENTS
    match submitOf (finish Interview.serve read h.node.disk).1.1 with
    | none => ⟨node, h.server⟩
    | some body =>
      let sent : Sent := ⟨body, cursor, h.server.appended, h.node.disk.events⟩
      ⟨node, { h.server with
        runs := h.server.runs ++ [⟨sent, submitInterview sha1 nodeId body⟩] }⟩

def Hosted.prune (h : Hosted) (watermark : ℤ) : Hosted where
  node := h.node.prune watermark
  server := { h.server with
    pruned := h.server.pruned ++ h.node.disk.events.filter fun ev => ev.seq ≤ watermark }

def Hosted.respond (h : Hosted) (run : ℕ) : Hosted :=
  match h.server.runs[run]? with
  | some ⟨_, .done result⟩ =>
    match result.watermark with
    | some watermark => h.prune watermark
    | none => h
  | _ => h

def Hosted.step (h : Hosted) : Move → Hosted
  | .append ts input => h.append ts input
  | .restart => { h with node := { h.node with state := none } }
  | .tick => { h with server := h.server.tick }
  | .deliver command => h.deliver sha1 nodeId command
  | .turn run reply => { h with server := h.server.turn run reply }
  | .cancel run => { h with server := h.server.cancel run }
  | .respond run => h.respond run

def Hosted.moved (h : Hosted) : Move → List Event
  | .append ts input => [.append (addedEvent ts input h.node.seeded)]
  | .restart => []
  | .tick => [.tick]
  | .deliver command => [.deliver command]
  | .turn run reply => [.turn run reply]
  | .cancel run => [.cancel run]
  | .respond run => [.respond run]

end Moves

/-- No append compacts the buffer. -/
def Hosted.Fits (h : Hosted) : Move → Prop
  | .append ts input => ¬ Overflows ts input h.node.seeded
  | _ => True

/-- The files are sound, and the next seq is beyond all that were given. -/
structure Hosted.Sound (h : Hosted) : Prop where
  node : h.node.Sound
  fresh : ∀ old ∈ h.server.appended, old.seq < h.node.disk.nextSeq

section Simulation

variable {h : Hosted}

theorem Hosted.Sound.window (hs : h.Sound) (sinceSeq : ℤ) :
    (finish Interview.serve (readInterviewEvents sinceSeq INTERVIEW_SUBMIT_MAX_EVENTS h.node.state)
      h.node.disk).1.1 = readWindow sinceSeq h.node.disk.events := by
  rw [finish_readInterviewEvents, hs.node.settles.events]
  rfl

theorem Hosted.Sound.disk_read (hs : h.Sound) (sinceSeq : ℤ) (maxCount : ℕ) :
    (h.node.read sinceSeq maxCount).disk.events = h.node.disk.events ∧
      (h.node.read sinceSeq maxCount).disk.nextSeq = h.node.disk.nextSeq := by
  unfold Node.read
  rw [finish_readInterviewEvents]
  exact ⟨hs.node.settles.events, hs.node.settles.nextSeq_eq⟩

theorem Hosted.Sound.append (hs : h.Sound) {ts : Utf16} {input : InterviewEventInput}
    (hfits : ¬ Overflows ts input h.node.seeded) :
    (h.append ts input).Sound ∧
      (h.append ts input).system = h.system.append (addedEvent ts input h.node.seeded) := by
  obtain ⟨hevents, -, hnext⟩ := hs.node.written ts input
  have hdisk : (h.node.append ts input).disk =
      (h.node.disk.settled h.node.state).2.written ts input h.node.seeded := by
    unfold Node.append
    dsimp only
    rw [h.node.finish_append, finish_appendSeeded, if_neg hfits]
  have hseq : (addedEvent ts input h.node.seeded).seq = h.node.disk.nextSeq :=
    hs.node.settles.nextSeq
  have hnew : ∀ old ∈ h.system.appended, old.seq < (addedEvent ts input h.node.seeded).seq := by
    rw [hseq]
    exact hs.fresh
  refine ⟨⟨hs.node.append ts input, fun old hold => ?_⟩, ?_⟩
  · show old.seq < (h.node.append ts input).disk.nextSeq
    rw [hdisk, hnext]
    rcases List.mem_append.mp hold with hmem | hlast
    · exact Nat.lt_succ_of_lt (hs.fresh old hmem)
    · rw [List.mem_singleton.mp hlast, hseq]
      exact Nat.lt_succ_self _
  · rw [System.append, if_pos hnew]
    unfold Hosted.system Hosted.append
    rw [hdisk, hevents]

theorem Hosted.Sound.deliver (hs : h.Sound) (sha1 : String → String) (nodeId : String)
    (command : ℕ) :
    (h.deliver sha1 nodeId command).Sound ∧
      (h.deliver sha1 nodeId command).system = h.system.deliver sha1 nodeId command := by
  unfold Hosted.deliver System.deliver System.reads
  have hcommands : h.system.commands = h.server.commands := rfl
  rw [hcommands]
  cases h.server.commands[command]? with
  | none => exact ⟨hs, rfl⟩
  | some asked =>
    obtain ⟨sinceSeq, cursor⟩ := asked
    obtain ⟨hevents, hnext⟩ := hs.disk_read (sinceSeqOf (some sinceSeq)) INTERVIEW_SUBMIT_MAX_EVENTS
    have hnode := hs.node.read (sinceSeqOf (some sinceSeq)) INTERVIEW_SUBMIT_MAX_EVENTS
    have hbuffer : h.system.buffer = h.node.disk.events := rfl
    dsimp only
    rw [hs.window, hbuffer]
    cases submitOf (readWindow (sinceSeqOf (some sinceSeq)) h.node.disk.events) with
    | none => exact ⟨⟨hnode, hnext ▸ hs.fresh⟩, by simp only [Hosted.system, hevents, Option.map_none]⟩
    | some body =>
      exact ⟨⟨hnode, hnext ▸ hs.fresh⟩, by simp only [Hosted.system, hevents, Option.map_some]⟩

theorem Hosted.Sound.prune (hs : h.Sound) (watermark : ℤ) :
    (h.prune watermark).Sound ∧ (h.prune watermark).system = h.system.prune watermark := by
  obtain ⟨-, hevents, hnext⟩ := hs.node.disk_prune watermark
  refine ⟨⟨hs.node.prune watermark, ?_⟩, ?_⟩
  · unfold Hosted.prune
    rw [hnext]
    exact hs.fresh
  · unfold Hosted.system Hosted.prune
    rw [hevents]
    rfl

theorem Hosted.Sound.respond (hs : h.Sound) (run : ℕ) :
    (h.respond run).Sound ∧ (h.respond run).system = h.system.respond run := by
  unfold Hosted.respond System.respond
  have hruns : h.system.runs = h.server.runs := rfl
  rw [hruns]
  cases h.server.runs[run]? with
  | none => exact ⟨hs, rfl⟩
  | some r =>
    obtain ⟨sent, prog⟩ := r
    cases prog with
    | done result =>
      dsimp only
      cases result.watermark with
      | some watermark => exact hs.prune watermark
      | none => exact ⟨hs, rfl⟩
    | raise status => exact ⟨hs, rfl⟩
    | call c next => exact ⟨hs, rfl⟩

theorem Hosted.Sound.turn (hs : h.Sound) (run : ℕ) (reply : Reply) :
    Hosted.Sound { h with server := h.server.turn run reply } ∧
      Hosted.system { h with server := h.server.turn run reply } = h.system.turn run reply := by
  unfold Hosted.system System.turn
  dsimp only
  cases h.server.runs[run]? with
  | none => exact ⟨hs, rfl⟩
  | some r =>
    obtain ⟨sent, prog⟩ := r
    cases prog with
    | call c next => exact ⟨⟨hs.node, hs.fresh⟩, rfl⟩
    | done result => exact ⟨hs, rfl⟩
    | raise status => exact ⟨hs, rfl⟩

theorem Hosted.Sound.cancel (hs : h.Sound) (run : ℕ) :
    Hosted.Sound { h with server := h.server.cancel run } ∧
      Hosted.system { h with server := h.server.cancel run } = h.system.cancel run := by
  unfold Hosted.system System.cancel
  dsimp only
  cases h.server.runs[run]? with
  | none => exact ⟨hs, rfl⟩
  | some r => exact ⟨⟨hs.node, hs.fresh⟩, rfl⟩

/-- A move that compacts nothing is the step of the system. -/
theorem Hosted.Sound.step (hs : h.Sound) (sha1 : String → String) (nodeId : String) {move : Move}
    (hfits : h.Fits move) :
    (h.step sha1 nodeId move).Sound ∧ (h.step sha1 nodeId move).system =
      Lib.Interleave.run (fun s e => s.step sha1 nodeId e) h.system (h.moved move) := by
  cases move with
  | append ts input => exact hs.append hfits
  | restart =>
    exact ⟨⟨{ hs.node with agrees := agrees_none _ }, hs.fresh⟩, rfl⟩
  | tick => exact ⟨⟨hs.node, hs.fresh⟩, rfl⟩
  | deliver command => exact hs.deliver sha1 nodeId command
  | turn run reply => exact hs.turn run reply
  | cancel run => exact hs.cancel run
  | respond run => exact hs.respond run

/-- Where no append compacts the buffer, the files and the server run as the system does. -/
theorem Hosted.Sound.run (hs : h.Sound) (sha1 : String → String) (nodeId : String)
    {moves : List Move} (hfits : Along (fun h m => h.step sha1 nodeId m) Hosted.Fits h moves) :
    ∃ events, (Lib.Interleave.run (fun h m => h.step sha1 nodeId m) h moves).system =
      Lib.Interleave.run (fun s e => s.step sha1 nodeId e) h.system events := by
  induction moves generalizing h with
  | nil => exact ⟨[], rfl⟩
  | cons move moves ih =>
    obtain ⟨hnext, hsystem⟩ := hs.step sha1 nodeId hfits.1
    obtain ⟨events, hevents⟩ := ih hnext hfits.2
    exact ⟨h.moved move ++ events, by rw [run_append, ← hsystem]; exact hevents⟩

end Simulation

def Hosted.start : Hosted := ⟨Node.start, System.start⟩

theorem sound_hostedStart : Hosted.start.Sound :=
  ⟨sound_start, fun _ hold => absurd hold List.not_mem_nil⟩

theorem hosted_sound (sha1 : String → String) (nodeId : String) {moves : List Move}
    (hfits : Along (fun h m => h.step sha1 nodeId m) Hosted.Fits Hosted.start moves) :
    (run (fun h m => h.step sha1 nodeId m) Hosted.start moves).system.Sound := by
  obtain ⟨events, hevents⟩ := sound_hostedStart.run sha1 nodeId hfits
  rw [hevents]
  exact sound_systemStart.run sha1 nodeId events

/-- Every event that the plugin prunes was carried by a submit whose report was written without
total failure, or was empty. -/
theorem pruned_consumed (sha1 : String → String) (nodeId : String) (events : List Event) :
    ∀ ev ∈ (run (fun s e => s.step sha1 nodeId e) System.start events).pruned,
      ∃ body ∈ (run (fun s e => s.step sha1 nodeId e) System.start events).consumed,
        ev ∈ body.events :=
  (sound_systemStart.run sha1 nodeId events).pruned

def wholeTry : List Event :=
  [.append (eventWithSeq 0), .tick, .deliver 0, .turn 0 .good, .turn 0 .good, .turn 0 .good,
    .turn 0 .good, .turn 0 .good, .turn 0 .good, .respond 0]

theorem pruned_consumed_whole :
    ∃ body ∈ (run (fun s e => s.step id "node" e) System.start wholeTry).consumed,
      eventWithSeq 0 ∈ body.events :=
  pruned_consumed id "node" wholeTry (eventWithSeq 0) (by decide)

end Memclaw.Interview
